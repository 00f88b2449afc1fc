import ShardCoding.Proofs.Coder.Session
import ShardCoding.Proofs.Stream.Progress

/-!
# What is counted

* `Counters.value` : one counter of a coder; `amountOf` : the amount that effects add to it;
* `Coder.Accounts` : a coder after such effects, with the calls that its observers may still make;
  `Coder.accounts_performNested` : what effects add, with the calls that observers make meanwhile;
* `Call.tally` : what a call is to add; `Call.amountOf_effects` : what its effects add;
* `Coder.counters_after` : the counters after a session.
-/

namespace ShardCoding

namespace Counters

/-- What a counter of the coder stands at; parity mismatches are not counted there. -/
def value (c : Counters) : Counter → UInt64
  | .encodes => c.encodes
  | .decodes => c.decodes
  | .repairs => c.repairs
  | .bytesEncoded => c.bytesEncoded
  | .bytesDecoded => c.bytesDecoded
  | .bytesRepaired => c.bytesRepaired
  | .parityMismatches => 0

theorem value_add (c : Counters) {counter : Counter} (hcounter : counter ≠ .parityMismatches) (counter' : Counter)
    (n : Nat) : (c.add counter' n).value counter =
      c.value counter + (if counter' = counter then n else 0).toUInt64 := by
  cases counter <;> cases counter' <;> first | exact absurd rfl hcounter | simp [add, value]

end Counters

/-- What an effect adds to a counter. -/
def Effect.amount (counter : Counter) : Effect → Nat
  | .count counter' n => if counter' = counter then n else 0
  | _ => 0

def amountOf (counter : Counter) (effects : List Effect) : Nat := (effects.map (Effect.amount counter)).sum

theorem amountOf_cons (counter : Counter) (effect : Effect) (effects : List Effect) :
    amountOf counter (effect :: effects) = effect.amount counter + amountOf counter effects := List.sum_cons

theorem amountOf_append (counter : Counter) (effects effects' : List Effect) :
    amountOf counter (effects ++ effects') = amountOf counter effects + amountOf counter effects' := by
  rw [amountOf, List.map_append, List.sum_append]
  rfl

theorem amountOf_announces (counter : Counter) (events : List Event) : amountOf counter (events.map .announce) = 0 := by
  induction events with
  | nil => rfl
  | cons event events ih => exact (Nat.zero_add _).trans ih

/-- What the effects of calls add to a counter. -/
def amountOfCalls (code : Code) (counter : Counter) (calls : List Call) : Nat :=
  (calls.map fun call => amountOf counter (call.effects code)).sum

theorem amountOfCalls_cons (code : Code) (counter : Counter) (call : Call) (calls : List Call) :
    amountOfCalls code counter (call :: calls) = amountOf counter (call.effects code) + amountOfCalls code counter calls :=
  List.sum_cons

theorem amountOfCalls_append (code : Code) (counter : Counter) (calls calls' : List Call) :
    amountOfCalls code counter (calls ++ calls') =
      amountOfCalls code counter calls + amountOfCalls code counter calls' := by
  rw [amountOfCalls, List.map_append, List.sum_append]
  rfl

namespace Coder

variable {code : Code} {counter : Counter} {c c' c'' : Coder}

/-- `c'` is `c` after `amount` was added to the counter, with at most `gained` more calls for observers to make. -/
structure Accounts (counter : Counter) (amount gained : Nat) (c c' : Coder) : Prop where
  code_eq : c'.code = c.code
  value_eq : c'.counters.value counter = c.counters.value counter + amount.toUInt64
  pending_le : c'.bus.pendingCalls ≤ c.bus.pendingCalls + gained

theorem Accounts.refl (counter : Counter) (c : Coder) : Accounts counter 0 0 c c :=
  ⟨rfl, (UInt64.add_zero _).symm, Nat.le_refl _⟩

theorem Accounts.trans {amount amount' gained gained' : Nat} (h : Accounts counter amount gained c c')
    (h' : Accounts counter amount' gained' c' c'') :
    Accounts counter (amount + amount') (gained + gained') c c'' where
  code_eq := h'.code_eq.trans h.code_eq
  value_eq := by
    rw [h'.value_eq, h.value_eq, UInt64.add_assoc]
    exact congrArg (_ + ·) (UInt64.ofNat_add amount amount').symm
  pending_le := by
    have := h.pending_le
    have := h'.pending_le
    omega

/-- Along a fold amounts and calls add up, as long as the observers' calls stay within a budget. -/
theorem Accounts.foldl {α : Type} {step : Coder → α → Coder} {out : Coder → α → List Call} {own : α → Nat}
    {budget : Nat}
    (hstep : ∀ c a, c.code = code → c.bus.pendingCalls ≤ budget →
      Accounts counter (own a + amountOfCalls code counter (out c a)) 0 c (step c a))
    (l : List α) {c : Coder} (hcode : c.code = code) (hbudget : c.bus.pendingCalls ≤ budget) :
    Accounts counter ((l.map own).sum + amountOfCalls code counter (putOut step out c l)) 0 c (l.foldl step c) := by
  induction l generalizing c with
  | nil => exact .refl counter c
  | cons a l ih =>
    have hhead := hstep c a hcode hbudget
    have htail := ih (hhead.code_eq.trans hcode) (Nat.le_trans hhead.pending_le hbudget)
    have hsum := hhead.trans htail
    rw [putOut, amountOfCalls_append, List.map_cons, List.sum_cons, List.foldl_cons]
    rwa [Nat.add_add_add_comm] at hsum

theorem accounts_settle (hcounter : counter ≠ .parityMismatches) (c : Coder) (effect : Effect) :
    Accounts counter (effect.amount counter) 0 c (c.settle effect) := by
  cases effect with
  | count counter' n => exact ⟨rfl, Counters.value_add c.counters hcounter counter' n, Nat.le_refl _⟩
  | _ => exact ⟨rfl, (UInt64.add_zero _).symm, Nat.le_refl _⟩

/-- Within the budget `perform` carries out what `calls` lists: the effects given add what they and the listed calls add
together. -/
def Listed (code : Code) (counter : Counter) (budget : Nat) (perform : List Effect → Coder → Coder)
    (calls : List Effect → Coder → List Call) : Prop :=
  ∀ effects c, c.code = code → c.bus.pendingCalls < budget →
    Accounts counter (amountOf counter effects + amountOfCalls code counter (calls effects c)) 0 c (perform effects c)

section

variable {perform : List Effect → Coder → Coder} {calls : List Effect → Coder → List Call} {budget : Nat}

/-- The reactions of one observer spend their calls, of which there are no more than are left in the budget. -/
theorem accounts_reactions (hlisted : Listed code counter budget perform calls) (id : Nat) (reactions : List Reaction)
    {c : Coder} (hcode : c.code = code) (hbudget : c.bus.pendingCalls + callsOfReactions reactions ≤ budget) :
    Accounts counter (amountOfCalls code counter (putOut (react perform id) (callsOfReaction calls) c reactions))
      (callsOfReactions reactions) c (reactions.foldl (react perform id) c) := by
  induction reactions generalizing c with
  | nil => exact .refl counter c
  | cons r reactions ih =>
    rw [callsOfReactions] at hbudget ⊢
    have hhead : Accounts counter (amountOfCalls code counter (callsOfReaction calls c r)) r.calls c
        (react perform id c r) := by
      cases r with
      | subscribe o =>
        exact ⟨rfl, (UInt64.add_zero _).symm, Nat.le_of_eq (EventBus.pendingCalls_subscribe c.bus o)⟩
      | unsubscribe other => exact ⟨rfl, (UInt64.add_zero _).symm, Nat.le_refl _⟩
      | leave => exact ⟨rfl, (UInt64.add_zero _).symm, Nat.le_refl _⟩
      | call call =>
        rw [Reaction.calls] at hbudget
        have hcall := hlisted (call.effects c.code) c hcode (by omega)
        refine ⟨hcall.code_eq, ?_, Nat.le_trans hcall.pending_le (Nat.le_succ _)⟩
        rw [hcode] at hcall
        rw [react, callsOfReaction, hcode, amountOfCalls_cons]
        exact hcall.value_eq
    have hpending := hhead.pending_le
    have htail := ih (hhead.code_eq.trans hcode) (by omega)
    rw [putOut, amountOfCalls_append, List.foldl_cons]
    exact hhead.trans htail

theorem accounts_deliver (hlisted : Listed code counter budget perform calls) (event : Event) {c : Coder} (id : Nat)
    (hcode : c.code = code) (hbudget : c.bus.pendingCalls ≤ budget) :
    Accounts counter (amountOfCalls code counter (callsOfDelivery perform calls event c id)) 0 c
      (deliver perform event c id) := by
  unfold callsOfDelivery deliver
  cases hid : c.bus.issued[id]? with
  | none => exact .refl counter c
  | some o =>
    dsimp only
    split
    · have hspent : (c.noted id event).bus.pendingCalls + callsOfReactions o.reactions = c.bus.pendingCalls :=
        EventBus.pendingCalls_spend hid
      have hreactions := accounts_reactions hlisted id o.reactions (c := c.noted id event) hcode (by omega)
      exact ⟨hreactions.code_eq, hreactions.value_eq, Nat.le_trans hreactions.pending_le (Nat.le_of_eq hspent)⟩
    · exact .refl counter c

theorem accounts_performWith (hcounter : counter ≠ .parityMismatches)
    (hlisted : Listed code counter budget perform calls) (effects : List Effect) {c : Coder} (hcode : c.code = code)
    (hbudget : c.bus.pendingCalls ≤ budget) :
    Accounts counter (amountOf counter effects + amountOfCalls code counter (callsWith perform calls effects c)) 0 c
      (performWith perform effects c) := by
  refine Accounts.foldl (fun c effect hcode hbudget => ?_) effects hcode hbudget
  cases effect with
  | announce event =>
    have hdeliver : Accounts counter ((c.bus.active.map fun _ => 0).sum +
        amountOfCalls code counter (callsOfEffect perform calls c (.announce event))) 0 c
        (carryOut perform c (.announce event)) := by
      refine Accounts.foldl (fun c id hcode hbudget => ?_) c.bus.active hcode hbudget
      rw [Nat.zero_add]
      exact accounts_deliver hlisted event id hcode hbudget
    rwa [List.map_const', List.sum_replicate_nat, Nat.mul_zero] at hdeliver
  | acquire guard => exact accounts_settle hcounter c (.acquire guard)
  | release guard => exact accounts_settle hcounter c (.release guard)
  | count counter' n => exact accounts_settle hcounter c (.count counter' n)
  | time operation => exact accounts_settle hcounter c (.time operation)
  | keepDigests digests => exact accounts_settle hcounter c (.keepDigests digests)

end

/-- With as much depth as calls are still to be made, every call that is listed is carried out. -/
theorem accounts_performNested (hcounter : counter ≠ .parityMismatches) (depth : Nat) (effects : List Effect) {c : Coder}
    (hcode : c.code = code) (hdepth : c.bus.pendingCalls ≤ depth) :
    Accounts counter (amountOf counter effects + amountOfCalls code counter (callsNested depth effects c)) 0 c
      (performNested depth effects c) := by
  induction depth generalizing effects c with
  | zero => exact accounts_performWith hcounter (fun _ _ _ hlt => absurd hlt (Nat.not_lt_zero _)) effects hcode hdepth
  | succ depth ih =>
    exact accounts_performWith hcounter (fun effects c hcode hlt => ih effects hcode (Nat.le_of_lt_succ hlt)) effects
      hcode hdepth

theorem value_act (hcounter : counter ≠ .parityMismatches) (c : Coder) (a : Act) :
    (c.act a).counters.value counter = c.counters.value counter +
      (amountOfCalls c.code counter (a.call?.toList ++ c.callsIn a)).toUInt64 := by
  cases a with
  | call call =>
    have hcall := accounts_performNested hcounter _ (call.effects c.code) (c := c) rfl (Nat.le_refl _)
    rw [Act.call?, Option.toList_some, List.singleton_append, amountOfCalls_cons]
    exact hcall.value_eq
  | _ => exact (UInt64.add_zero _).symm

/-- What a session adds to a counter is what the effects of all calls in it add. -/
theorem accounts_after (hcounter : counter ≠ .parityMismatches) (c : Coder) (acts : List Act) :
    (c.after acts).counters.value counter = c.counters.value counter +
      (amountOfCalls c.code counter (acts.filterMap Act.call? ++ c.callbacks acts)).toUInt64 := by
  unfold after callbacks
  induction acts generalizing c with
  | nil => exact (UInt64.add_zero _).symm
  | cons a acts ih =>
    rw [List.foldl_cons, ih, code_act, value_act hcounter, UInt64.add_assoc]
    refine congrArg (_ + ·) ((UInt64.ofNat_add _ _).symm.trans (congrArg Nat.toUInt64 ?_))
    have hcalls : (a :: acts).filterMap Act.call? = a.call?.toList ++ acts.filterMap Act.call? := by
      cases a <;> rfl
    rw [hcalls, putOut]
    simp only [amountOfCalls_append]
    omega

end Coder

/-! ## What calls add -/

namespace Call

/-- What a call adds to a counter. A call that encodes or decodes a buffer counts whatever comes of it, a streaming call once its
options and the number of its endpoints are accepted, a repair when it succeeds. Bytes count when a call succeeds. -/
def tally (code : Code) : Call → Counter → Nat
  | .encode _, .encodes | .encodeParallel _, .encodes => 1
  | .encode data, .bytesEncoded | .encodeParallel data, .bytesEncoded => data.length
  | .encodeStream _ sinks o, .encodes => if o.Valid ∧ sinks.length = code.scheme.total then 1 else 0
  | .encodeStream source sinks o, .bytesEncoded =>
    let encoding := code.encodeStream source sinks o
    if encoding.outcome.result.isOk then source.rest.length - encoding.source.rest.length else 0
  | .decode _ _ _ _, .decodes => 1
  | .decode slots present dataSize shardSize, .bytesDecoded =>
    if (code.decode slots present dataSize shardSize).result.isOk then dataSize else 0
  | .decodeStream sources present _ _ o, .decodes =>
    if o.Valid ∧ code.scheme.data ≤ sources.length ∧ present.length = sources.length then 1 else 0
  | .decodeStream sources present dataSize sink o, .bytesDecoded =>
    if (code.decodeStream sources present dataSize sink o).outcome.result.isOk then dataSize else 0
  | .repair slots present dataSize shardSize, .repairs =>
    if (code.repair slots present dataSize shardSize).result.isOk then 1 else 0
  | .repair slots present dataSize shardSize, .bytesRepaired =>
    if (code.repair slots present dataSize shardSize).result.isOk then (code.unlisted present).length * shardSize else 0
  | _, _ => 0

/-- The counters that calls of one kind are for. -/
def counters : Call → List Counter
  | .encode _ | .encodeParallel _ | .encodeStream _ _ _ => [.encodes, .bytesEncoded]
  | .decode _ _ _ _ | .decodeStream _ _ _ _ _ => [.decodes, .bytesDecoded]
  | .repair _ _ _ _ => [.repairs, .bytesRepaired]
  | .verify _ | .announce _ => []

theorem tally_eq_zero (code : Code) (call : Call) {counter : Counter} (h : counter ∉ call.counters) :
    call.tally code counter = 0 := by
  cases call <;> cases counter <;> first | rfl | simp [counters] at h

variable {code : Code} {counter : Counter}

theorem amountOf_decode (slots : Slots) (present : List Nat) (dataSize shardSize : Nat) :
    amountOf counter (code.decode slots present dataSize shardSize).effects =
      (Call.decode slots present dataSize shardSize).tally code counter := by
  have h := code.decode_traced slots present dataSize shardSize
  cases hdecode : code.decodeShards slots present dataSize shardSize <;> rw [hdecode] at h <;>
    cases counter <;> simp [tally, h, amountOf, Effect.amount, Except.isOk, Except.toBool]

theorem amountOf_verify (hcounter : counter ≠ .parityMismatches) (slots : Slots) :
    amountOf counter (code.verify slots).effects = 0 := by
  rw [code.verify_traced]
  cases code.fullSet slots with
  | error e => rfl
  | ok shards =>
    dsimp only
    split <;> simp [amountOf, Effect.amount, hcounter.symm]

theorem amountOf_repair (slots : Slots) (present : List Nat) (dataSize shardSize : Nat) :
    amountOf counter (code.repair slots present dataSize shardSize).effects =
      (Call.repair slots present dataSize shardSize).tally code counter := by
  have h := code.repair_traced slots present dataSize shardSize
  cases hrepair : code.repairShards slots present dataSize shardSize with
  | error e =>
    rw [hrepair] at h
    cases counter <;> simp [tally, h, amountOf, Effect.amount, Except.isOk, Except.toBool]
  | ok repaired =>
    obtain ⟨rebuilt, missing⟩ := repaired
    obtain rfl := code.missing_of_repairShards hrepair
    rw [hrepair] at h
    dsimp only at h
    split at h <;> cases counter <;> simp [tally, h, amountOf, Effect.amount, Except.isOk, Except.toBool]

/-- What a streaming call adds that came to its loop. -/
theorem amountOf_streamed (counter : Counter) (first : Effect) (events : List Event) (closing : List Effect) :
    amountOf counter (.acquire .shared :: first :: events.map .announce ++ closing ++ [.release .shared]) =
      first.amount counter + amountOf counter closing := by
  simp only [List.cons_append, amountOf_cons, amountOf_append, amountOf_announces, Effect.amount, Nat.zero_add]
  rfl

theorem amountOf_encodeStream (source : Source) (sinks : List Sink) (o : StreamOptions) :
    amountOf counter (code.encodeStream source sinks o).outcome.effects =
      (Call.encodeStream source sinks o).tally code counter := by
  obtain ⟨delivered, hhands, htotal, -⟩ := code.encodeStream_announces source sinks o
  have hread : source.rest.length - (code.encodeStream source sinks o).source.rest.length = delivered.length := by
    rw [hhands.rest_eq, List.length_append, Nat.add_sub_cancel]
  rcases Code.encodeStream_cases code source sinks o with
    ⟨hrefused, e, -, heq⟩ | ⟨haccepted, ⟨-, heq⟩ | ⟨-, r, e, -, heq⟩⟩
  · cases counter <;> simp [tally, heq, hrefused, amountOf, Traced.fail, Except.isOk, Except.toBool]
  · cases counter <;> simp [tally, heq, haccepted, amountOf, Effect.amount, Except.isOk, Except.toBool]
  · rw [show (code.encodeStream source sinks o).outcome.effects = (e.conclude r).outcome.effects by rw [heq],
      ChunkEncoder.conclude, amountOf_streamed]
    have hresult : (code.encodeStream source sinks o).outcome.result = e.ending r := by rw [heq]; rfl
    cases hending : e.ending r with
    | error err =>
      rw [hending] at hresult
      cases counter <;> simp [tally, hresult, haccepted, amountOf, Effect.amount, encodeClosing, Except.isOk, Except.toBool]
    | ok s =>
      rw [hending] at hresult
      have htotal' := (htotal s hresult).2.1
      cases counter <;>
        simp [tally, hresult, haccepted, amountOf, Effect.amount, encodeClosing, Except.isOk, Except.toBool, hread, htotal']

theorem amountOf_decodeStream (sources : List Source) (present : List Nat) (dataSize : Nat) (sink : Sink)
    (o : StreamOptions) :
    amountOf counter (code.decodeStream sources present dataSize sink o).outcome.effects =
      (Call.decodeStream sources present dataSize sink o).tally code counter := by
  obtain ⟨hwritten, -⟩ := code.decodeStream_announces sources present dataSize sink o
  rcases Code.decodeStream_cases code sources present dataSize sink o with
    ⟨hrefused, e, -, heq⟩ | ⟨haccepted, ⟨e, -, heq⟩ | ⟨-, plan, r, d, -, -, heq⟩⟩
  · cases counter <;> simp [tally, heq, hrefused, amountOf, Traced.fail, Except.isOk, Except.toBool]
  · cases counter <;> simp [tally, heq, haccepted, amountOf, Effect.amount, Except.isOk, Except.toBool]
  · rw [show (code.decodeStream sources present dataSize sink o).outcome.effects = (d.conclude plan r).outcome.effects by
      rw [heq], ChunkDecoder.conclude, amountOf_streamed]
    have hresult : (code.decodeStream sources present dataSize sink o).outcome.result = d.ending r := by rw [heq]; rfl
    cases hending : d.ending r with
    | error err =>
      rw [hending] at hresult
      cases counter <;> simp [tally, hresult, haccepted, amountOf, Effect.amount, decodeClosing, Except.isOk, Except.toBool]
    | ok written =>
      rw [hending] at hresult
      obtain rfl := (hwritten written hresult).1
      cases counter <;>
        simp [tally, hresult, haccepted, amountOf, Effect.amount, decodeClosing, Except.isOk, Except.toBool]

/-- The effects of a call add what the call is to add. -/
theorem amountOf_effects (hcounter : counter ≠ .parityMismatches) (call : Call) :
    amountOf counter (call.effects code) = call.tally code counter := by
  cases call with
  | encode data => cases counter <;> simp [effects, tally, code.encode_traced data, amountOf, Effect.amount]
  | encodeParallel data =>
    rw [effects, code.encodeParallel_eq]
    cases counter <;> simp [tally, code.encode_traced data, amountOf, Effect.amount]
  | decode slots present dataSize shardSize => exact amountOf_decode slots present dataSize shardSize
  | verify slots => exact amountOf_verify hcounter slots
  | repair slots present dataSize shardSize => exact amountOf_repair slots present dataSize shardSize
  | encodeStream source sinks o => exact amountOf_encodeStream source sinks o
  | decodeStream sources present dataSize sink o => exact amountOf_decodeStream sources present dataSize sink o
  | announce event => rfl

end Call

namespace Coder

theorem amountOfCalls_eq {code : Code} {counter : Counter} (hcounter : counter ≠ .parityMismatches) (calls : List Call) :
    amountOfCalls code counter calls = (calls.map fun call => call.tally code counter).sum :=
  congrArg List.sum (List.map_congr_left fun call _ => call.amountOf_effects hcounter)

/-- **Counters**: after any session a counter stands at the sum of what the calls in it add, modulo `2^64`, those made by
observers included; and a call in the course of which no observer calls back leaves the counters alone that are for
calls of another kind. -/
theorem counters_after (code : Code) (thresholds : Thresholds Float) (acts : List Act) :
    let start := fresh code thresholds
    let c := start.after acts
    let calls := acts.filterMap Act.call? ++ start.callbacks acts
    (∀ counter, counter ≠ .parityMismatches →
      (c.counters.value counter).toNat = (calls.map fun call => call.tally code counter).sum % 2 ^ 64) ∧
    ∀ call, c.callsDuring (call.effects code) = [] → ∀ counter, counter ∉ call.counters →
      (c.call call).counters.value counter = c.counters.value counter := by
  dsimp only
  refine ⟨fun counter hcounter => ?_, fun call hnone counter hother => ?_⟩
  · rw [accounts_after hcounter, fresh, amountOfCalls_eq hcounter]
    have hzero : ({} : Counters).value counter = 0 := by cases counter <;> rfl
    rw [hzero, UInt64.zero_add]
    exact UInt64.toNat_ofNat'
  · by_cases hcounter : counter = .parityMismatches
    · rw [hcounter]
      rfl
    · have hcode : ((fresh code thresholds).after acts).code = code := code_after _ acts
      have hact := value_act hcounter ((fresh code thresholds).after acts) (.call call)
      rw [hcode, Act.call?, callsIn, hcode, hnone, List.append_nil, amountOfCalls_eq hcounter, Option.toList_some,
        List.map_singleton, List.sum_singleton, call.tally_eq_zero code hother] at hact
      exact hact.trans (UInt64.add_zero _)

/-- An observer encodes two bytes when it hears that three were encoded; a decode without shards is counted all the same,
a repair rebuilds one parity shard, and a verification leaves the counters alone. -/
theorem counters_after_one_one : ∃ (code : Code) (acts : List Act),
    code.scheme = ⟨1, 1⟩ ∧ acts = [.subscribe (.mk .encodings [[.call (.encode [4, 5])]]), .call (.encode [1, 2, 3]),
      .call (.decode [] [] 1 1), .call (.repair [some [6], none] [0] 1 1)] ∧
    let c := (fresh code .standard).after acts
    (c.counters.value .encodes).toNat = 2 ∧ (c.counters.value .bytesEncoded).toNat = 5 ∧
    (c.counters.value .decodes).toNat = 1 ∧ (c.counters.value .bytesDecoded).toNat = 0 ∧
    (c.counters.value .repairs).toNat = 1 ∧ (c.counters.value .bytesRepaired).toNat = 1 ∧
    (c.call (.verify [])).counters.value .encodes = c.counters.value .encodes := by
  let code := Code.ofValid ⟨1, 1⟩ (by decide)
  let acts : List Act := [.subscribe (.mk .encodings [[.call (.encode [4, 5])]]), .call (.encode [1, 2, 3]),
    .call (.decode [] [] 1 1), .call (.repair [some [6], none] [0] 1 1)]
  obtain ⟨hvalue, hother⟩ := counters_after code .standard acts
  refine ⟨code, acts, rfl, rfl, ?_, ?_, ?_, ?_, ?_, ?_, hother (.verify []) (by decide +kernel) .encodes (by decide)⟩
  · exact (hvalue .encodes (by decide)).trans (by decide +kernel)
  · exact (hvalue .bytesEncoded (by decide)).trans (by decide +kernel)
  · exact (hvalue .decodes (by decide)).trans (by decide +kernel)
  · exact (hvalue .bytesDecoded (by decide)).trans (by decide +kernel)
  · exact (hvalue .repairs (by decide)).trans (by decide +kernel)
  · exact (hvalue .bytesRepaired (by decide)).trans (by decide +kernel)

end Coder

end ShardCoding
