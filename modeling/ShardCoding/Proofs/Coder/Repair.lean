import ShardCoding.Proofs.Code.Restoration
import ShardCoding.Proofs.Coder.Session

/-!
# Repairs that fail, and repairs that are made twice

* `InPlace` : a program on slots that it is handed; `InPlace.Reads` : it changes none of them;
* `Code.repairInPlace` : a repair that writes one slot after another; `Code.runOn_repairInPlace` : it leaves in them what
  `Code.repairShards` yields, and what they held before if it is refused;
* `Coder.perform_repair_of_error`, `Coder.perform_repair_of_nil` : a coder after a repair that is refused, or that has
  nothing to rebuild;
* `Coder.repair_atomic` : what a repair leaves of the slots and of its coder when it fails, and when it is made twice.
-/

namespace ShardCoding

/-! ## Slots that are changed in place -/

/-- A program that is refused leaves the slots as they are by then. -/
abbrev InPlace : Type → Type := ExceptT CodingError (StateM Slots)

namespace InPlace

variable {α β γ : Type}

/-- The result, and the slots afterwards. -/
def runOn (program : InPlace α) (slots : Slots) : Except CodingError α × Slots := (ExceptT.run program).run slots

/-- A look at the slots. -/
def look (f : Slots → Except CodingError α) : InPlace α := ExceptT.mk fun slots => (f slots, slots)

theorem runOn_bind (program : InPlace α) (next : α → InPlace β) (slots : Slots) :
    (program >>= next).runOn slots =
      match program.runOn slots with
      | (.error e, slots') => (.error e, slots')
      | (.ok a, slots') => (next a).runOn slots' := by
  show (ExceptT.bindCont next (program.runOn slots).1).run (program.runOn slots).2 = _
  obtain ⟨_ | _, _⟩ := program.runOn slots <;> rfl

/-- `program` yields what `f` says of the slots, and changes none of them. -/
def Reads (program : InPlace α) (f : Slots → Except CodingError α) : Prop :=
  ∀ slots, program.runOn slots = (f slots, slots)

variable {program : InPlace α} {f : Slots → Except CodingError α}

theorem reads_look (f : Slots → Except CodingError α) : (look f).Reads f := fun _ => rfl

theorem reads_pure (a : α) : (pure a : InPlace α).Reads fun _ => .ok a := fun _ => rfl

/-- What comes after such a program finds the slots as they were. -/
theorem Reads.runOn_bind (h : program.Reads f) (next : α → InPlace β) (slots : Slots) :
    (program >>= next).runOn slots =
      match f slots with
      | .error e => (.error e, slots)
      | .ok a => (next a).runOn slots := by
  rw [InPlace.runOn_bind, h slots]
  cases f slots <;> rfl

theorem Reads.bind (h : program.Reads f) {next : α → InPlace β} {g : α → Slots → Except CodingError β}
    (hnext : ∀ a, (next a).Reads (g a)) : (program >>= next).Reads fun slots => f slots >>= fun a => g a slots := by
  intro slots
  dsimp only
  rw [h.runOn_bind]
  cases f slots with
  | error e => rfl
  | ok a => exact hnext a slots

section

variable {check : γ → InPlace α} {g : γ → Slots → Except CodingError α}

theorem Reads.mapM (h : ∀ a, (check a).Reads (g a)) (l : List γ) :
    (l.mapM check).Reads fun slots => l.mapM (g · slots) := by
  induction l with
  | nil => exact reads_pure []
  | cons a l ih =>
    simp only [List.mapM_cons]
    exact (h a).bind fun b => ih.bind fun bs => reads_pure (b :: bs)

/-- A loop of such programs. -/
theorem Reads.forIn (h : ∀ a, (check a).Reads (g a)) (l : List γ) :
    (ForIn.forIn l PUnit.unit fun a _ => do
      let _ ← check a
      pure (ForInStep.yield PUnit.unit)).Reads fun slots =>
    (ForIn.forIn l PUnit.unit fun a _ => do
      let _ ← g a slots
      pure (ForInStep.yield PUnit.unit)) := by
  induction l with
  | nil => exact reads_pure PUnit.unit
  | cons a l ih =>
    simp only [List.forIn_cons, bind_assoc, pure_bind]
    exact (h a).bind fun _ => ih

end

/-- A loop that writes is never refused. -/
theorem runOn_writes (write : γ → Slots → Slots) (l : List γ) (slots : Slots) :
    (ForIn.forIn l PUnit.unit fun a _ => do
      modify (write a)
      pure (ForInStep.yield PUnit.unit) : InPlace PUnit).runOn slots =
    (.ok PUnit.unit, l.foldl (fun s a => write a s) slots) := by
  induction l generalizing slots with
  | nil => rfl
  | cons a l ih =>
    simp only [List.forIn_cons, bind_assoc, pure_bind]
    exact ih (write a slots)

end InPlace

namespace Code

/-- The indices that are rebuilt. All shards are looked at, and all parity computed, before the first slot is written. -/
def repairInPlace (code : Code) (present : List Nat) (dataSize size : Nat) : InPlace (List Nat) := do
  let k := code.scheme.data
  let n := code.scheme.total
  InPlace.look code.checkSlotCount
  InPlace.look fun _ => code.checkCapacity dataSize size
  if let some i := present.find? (n ≤ ·) then
    throw (.shardIndex i (n - 1))
  let dataPresent := ((List.range k).filter (· ∈ present)).length
  if dataPresent < k then
    throw (.insufficientShards dataPresent k)
  for i in present.filter (k ≤ ·) do
    let _ ← InPlace.look (presentShard · size i)
  let data ← (List.range k).mapM fun i => InPlace.look (presentShard · size i)
  let missing := code.unlisted present
  let rebuilt := missing.map fun i => (i, code.parityShard (i - k) size data)
  for (i, parity) in rebuilt do
    modify (·.set i (some parity))
  return missing

/-- The slots are left as they were or as the repair makes them, and never in between. -/
theorem runOn_repairInPlace (code : Code) (slots : Slots) (present : List Nat) (dataSize size : Nat) :
    (code.repairInPlace present dataSize size).runOn slots =
      match code.repairShards slots present dataSize size with
      | .error e => (.error e, slots)
      | .ok (rebuilt, missing) => (.ok missing, rebuilt) := by
  have hcheck (i : Nat) := InPlace.reads_look (presentShard · size i)
  -- up to the loop that writes, both come past the same checks, and the slots are those handed over
  unfold repairInPlace repairShards
  dsimp only
  rw [(InPlace.reads_look _).runOn_bind]
  cases code.checkSlotCount slots with
  | error e => rfl
  | ok _ =>
  dsimp only
  rw [(InPlace.reads_look _).runOn_bind]
  cases code.checkCapacity dataSize size with
  | error e => rfl
  | ok _ =>
  cases present.find? (code.scheme.total ≤ ·) with
  | some i => rfl
  | none =>
  dsimp only
  by_cases hlisted : ((List.range code.scheme.data).filter (· ∈ present)).length < code.scheme.data
  · rw [if_pos hlisted, if_pos hlisted]
    rfl
  rw [if_neg hlisted, if_neg hlisted, (InPlace.Reads.forIn hcheck _).runOn_bind]
  cases (forIn (present.filter (code.scheme.data ≤ ·)) PUnit.unit fun i _ => do
      let _ ← presentShard slots size i
      pure (ForInStep.yield PUnit.unit) : Except CodingError PUnit) with
  | error e => rfl
  | ok _ =>
  dsimp only
  rw [(InPlace.Reads.mapM hcheck _).runOn_bind]
  cases (List.range code.scheme.data).mapM (presentShard slots size) with
  | error e => rfl
  | ok data =>
  dsimp only
  rw [InPlace.runOn_bind, InPlace.runOn_writes, List.foldl_map]
  rfl

end Code

/-! ## Repairs of a coder -/

/-- Afterwards the same guards are held, and it is known whether this one was admitted. -/
theorem Lock.release_acquire (l : Lock) (g : Guard) :
    (l.acquire g).release g = { l with stuck := l.stuck || !l.admits g } := by
  rw [Lock.release, Lock.acquire, List.erase_cons_head]

theorem Counters.add_zero (n : Counters) (counter : Counter) : n.add counter 0 = n := by
  cases counter <;> simp [Counters.add]

namespace Coder

variable {c : Coder} {slots : Slots} {present : List Nat} {dataSize size : Nat}

/-- A repair that is refused announces nothing, and leaves of its coder all but the record of its lock. -/
theorem perform_repair_of_error {e : CodingError}
    (h : c.code.repairShards slots present dataSize size = .error e) :
    eventsOf (c.code.repair slots present dataSize size).effects = [] ∧
      c.perform (c.code.repair slots present dataSize size).effects =
        { c with lock := { c.lock with stuck := c.lock.stuck || !c.lock.admits .exclusive } } := by
  have hrepair := c.code.repair_traced slots present dataSize size
  rw [h] at hrepair
  rw [hrepair, ← Lock.release_acquire]
  exact ⟨rfl, perform_of_silent rfl c⟩

/-- A repair that has nothing to rebuild announces nothing, and is counted. -/
theorem perform_repair_of_nil (h : c.code.repairShards slots present dataSize size = .ok (slots, [])) :
    (c.code.repair slots present dataSize size).result = .ok ⟨slots, [], 0⟩ ∧
      eventsOf (c.code.repair slots present dataSize size).effects = [] ∧
      let c' := c.perform (c.code.repair slots present dataSize size).effects
      c'.journal.deliveries = c.journal.deliveries ∧ c'.digests = c.digests ∧
        c'.counters = c.counters.add .repairs 1 := by
  have hrepair := c.code.repair_traced slots present dataSize size
  rw [h] at hrepair
  dsimp only at hrepair
  rw [List.length_nil, Nat.zero_mul] at hrepair
  rw [hrepair]
  refine ⟨rfl, rfl, ?_⟩
  rw [perform_of_silent rfl]
  exact ⟨rfl, rfl, Counters.add_zero _ .bytesRepaired⟩

/-- **Repair is atomic and idempotent**, whatever the state of the coder and the arguments are. A repair that fails leaves
the slots as they were, though it is handed them to write to; it announces nothing, and of its coder it leaves all but the
lock's record of a guard that was not admitted as it was. A repair that succeeds can be made again with the rebuilt indices
listed as well: it then rebuilds nothing, leaves the slots as they are and announces nothing. -/
theorem repair_atomic (c : Coder) (slots : Slots) (present : List Nat) (dataSize size : Nat) :
    let repair := c.code.repair slots present dataSize size
    let done := c.run repair
    (∀ e, done.1 = .error e →
      (c.code.repairInPlace present dataSize size).runOn slots = (.error e, slots) ∧
      eventsOf repair.effects = [] ∧
      done.2 = { c with lock := { c.lock with stuck := c.lock.stuck || !c.lock.admits .exclusive } }) ∧
    ∀ r, done.1 = .ok r →
      (c.code.repairInPlace present dataSize size).runOn slots = (.ok r.repairedIndices, r.slots) ∧
      ∀ present', (∀ i, i ∈ present' ↔ i ∈ present ∨ i ∈ r.repairedIndices) →
        let again := done.2.code.repair r.slots present' dataSize size
        let doneAgain := done.2.run again
        doneAgain.1 = .ok ⟨r.slots, [], 0⟩ ∧
        (done.2.code.repairInPlace present' dataSize size).runOn r.slots = (.ok [], r.slots) ∧
        eventsOf again.effects = [] ∧ doneAgain.2.journal.deliveries = done.2.journal.deliveries ∧
        doneAgain.2.digests = done.2.digests ∧ doneAgain.2.counters = done.2.counters.add .repairs 1 := by
  intro repair done
  have hinPlace := c.code.runOn_repairInPlace slots present dataSize size
  have hrepair := c.code.repair_traced slots present dataSize size
  cases hshards : c.code.repairShards slots present dataSize size with
  | error e =>
    rw [hshards] at hinPlace hrepair
    have hresult : done.1 = .error e := congrArg Traced.result hrepair
    refine ⟨fun e' he' => ?_, fun r hr => absurd (hresult.symm.trans hr) nofun⟩
    obtain rfl := Except.error.inj (hresult.symm.trans he')
    exact ⟨hinPlace, perform_repair_of_error hshards⟩
  | ok repaired =>
    rw [hshards] at hinPlace hrepair
    have hresult : done.1 = .ok ⟨repaired.1, repaired.2, repaired.2.length * size⟩ := congrArg Traced.result hrepair
    refine ⟨fun e he => absurd (hresult.symm.trans he) nofun, fun r hr => ?_⟩
    obtain ⟨hrepairable, hrebuilt, hindices, -⟩ := Code.of_result_repair hr
    obtain rfl := Except.ok.inj (hresult.symm.trans hr)
    refine ⟨hinPlace, fun present' hpresent' => ?_⟩
    have hshardsAgain : done.2.code.repairShards repaired.1 present' dataSize size = .ok (repaired.1, []) := by
      rw [show done.2.code = c.code from code_perform c _]
      refine hrebuilt.repairShards_again hrepairable fun i => ?_
      rw [hpresent' i, hindices]
    have hinPlaceAgain := done.2.code.runOn_repairInPlace repaired.1 present' dataSize size
    rw [hshardsAgain] at hinPlaceAgain
    obtain ⟨hresultAgain, hsilent, hleft⟩ := perform_repair_of_nil hshardsAgain
    exact ⟨hresultAgain, hinPlaceAgain, hsilent, hleft⟩

/-- One data shard and two parity shards, and a slot that is listed and empty: the repair fails, and the other parity slot
keeps its byte. When only the data shard is listed both are rebuilt, and an observer is told once, by the first repair. -/
theorem repair_atomic_one_two : ∃ (c : Coder) (slots : Slots) (r : Repair),
    c.code.scheme = ⟨1, 2⟩ ∧ c.bus.size = 1 ∧ slots = [some [5], some [9], none] ∧
    r = ⟨[some [5], some [5], some [5]], [1, 2], 2⟩ ∧
    let failed := c.run (c.code.repair slots [2, 0] 1 1)
    failed.1 = .error (.missingShard 2) ∧ failed.2 = c ∧
    (c.code.repairInPlace [2, 0] 1 1).runOn slots = (.error (.missingShard 2), slots) ∧
    let done := c.run (c.code.repair slots [0] 1 1)
    done.1 = .ok r ∧ (c.code.repairInPlace [0] 1 1).runOn slots = (.ok [1, 2], r.slots) ∧
    done.2.journal.deliveries = [(0, .repair ⟨[1, 2], 1⟩)] ∧
    let doneAgain := done.2.run (done.2.code.repair r.slots ([0] ++ r.repairedIndices) 1 1)
    doneAgain.1 = .ok ⟨r.slots, [], 0⟩ ∧ doneAgain.2.journal.deliveries = done.2.journal.deliveries := by
  let code := Code.ofValid ⟨1, 2⟩ (by decide)
  let c : Coder := { code, bus := EventBus.subscribe {} (.mk .repairs []) }
  let slots : Slots := [some [5], some [9], none]
  let r : Repair := ⟨[some [5], some [5], some [5]], [1, 2], 2⟩
  obtain ⟨hfails, -⟩ := repair_atomic c slots [2, 0] 1 1
  obtain ⟨-, hsucceeds⟩ := repair_atomic c slots [0] 1 1
  have hfailed : (c.run (c.code.repair slots [2, 0] 1 1)).1 = .error (.missingShard 2) := by
    decide +kernel
  have hdone : (c.run (c.code.repair slots [0] 1 1)).1 = .ok r := by
    decide +kernel
  obtain ⟨hfailedIn, -, hunchanged⟩ := hfails _ hfailed
  obtain ⟨hdoneIn, hagain⟩ := hsucceeds r hdone
  obtain ⟨hresult, -, -, hdeliveries, -⟩ := hagain ([0] ++ r.repairedIndices) fun i => List.mem_append
  have htold : (c.run (c.code.repair slots [0] 1 1)).2.journal.deliveries = [(0, .repair ⟨[1, 2], 1⟩)] := by
    decide +kernel
  exact ⟨c, slots, r, rfl, rfl, rfl, rfl, hfailed, hunchanged, hfailedIn, hdone, hdoneIn, htold, hresult, hdeliveries⟩

end Coder

end ShardCoding
