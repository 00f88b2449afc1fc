import ShardCoding.Proofs.Code.Effects
import ShardCoding.Proofs.Coder.Session
import ShardCoding.Proofs.Stream.Outcome

/-!
# The lock under calls of observers

All calls are on one thread, so a guard that a guard held by a call around it excludes is never given.

* `Call.guard?` : the side of the lock that a call takes; `Call.streams` : the calls that announce events while they hold
  it; `Call.Locked`, `Call.locked_effects` : where a call holds its guard;
* `Moment` : an event announced or a call made in the middle of other calls; `Coder.moments` : all of a session;
* `Coder.Settles` : a run that ends with the guards with which it began; `Coder.settles_call` : a call, with the calls that
  observers make meanwhile;
* `Coder.lock_after` : the lock at every moment of a session, and after it; `Coder.lock_repair_during_encodeStream` : a
  repair made by an observer of a streaming call.
-/

namespace ShardCoding

namespace Call

/-- The side of the lock that a call takes, unless it is refused before. -/
def guard? : Call → Option Guard
  | repair .. => some .exclusive
  | announce _ => none
  | _ => some .shared

/-- Streaming calls announce events while they hold the lock, all others once they have given it back. -/
def streams : Call → Bool
  | encodeStream .. => true
  | decodeStream .. => true
  | _ => false

end Call

/-- One shared guard for each streaming call among those in progress. -/
def guardsOf (within : List Call) : List Guard := (within.filter Call.streams).map fun _ => .shared

theorem guardsOf_cons (call : Call) (within : List Call) :
    guardsOf (call :: within) = if call.streams then .shared :: guardsOf within else guardsOf within := by
  unfold guardsOf
  rw [List.filter_cons]
  split <;> rfl

theorem Lock.admits_shared {l : Lock} {within : List Call} (h : l.held = guardsOf within) : l.admits .shared = true := by
  rw [admits, h, List.all_eq_true]
  intro g hg
  obtain ⟨_, -, rfl⟩ := List.mem_map.1 hg
  rfl

theorem Lock.admits_exclusive {l : Lock} {within : List Call} (h : l.held = guardsOf within) :
    l.admits .exclusive = !within.any Call.streams := by
  rw [admits, h]
  clear h
  induction within with
  | nil => rfl
  | cons call within ih =>
    rw [guardsOf_cons, List.any_cons]
    cases call.streams with
    | true => rfl
    | false => exact ih

/-! ## Where a call holds its guard -/

/-- Neither takes nor gives back a guard. -/
def Effect.LeavesLock : Effect → Prop
  | acquire _ => False
  | release _ => False
  | _ => True

/-- Announces nothing either. -/
def Effect.Quiet (e : Effect) : Prop := e.LeavesLock ∧ e.event? = none

@[simp] theorem Effect.leavesLock_announce (event : Event) : (announce event).LeavesLock := trivial

@[simp] theorem Effect.Quiet.leavesLock {e : Effect} (h : e.Quiet) : e.LeavesLock := h.1

@[simp] theorem Effect.quiet_count (counter : Counter) (n : Nat) : (count counter n).Quiet := ⟨trivial, rfl⟩

@[simp] theorem Effect.quiet_time (operation : Operation) : (time operation).Quiet := ⟨trivial, rfl⟩

@[simp] theorem Effect.quiet_keepDigests (digests : List Digest) : (keepDigests digests).Quiet := ⟨trivial, rfl⟩

/-- The effects of a call, by where it holds its guard and where it announces events. -/
inductive Call.Locked (call : Call) : List Effect → Prop where
  /-- It takes no guard, or it is refused before. -/
  | free {effects : List Effect} (hguard : call.guard? ≠ some .exclusive) (hleave : ∀ e ∈ effects, e.LeavesLock)
      (hrefused : call.streams = true → effects = []) : Locked call effects
  /-- It announces events once it has given the guard back. -/
  | buffered {g : Guard} {inside outside : List Effect} (hguard : call.guard? = some g) (hstreams : call.streams = false)
      (hinside : ∀ e ∈ inside, e.Quiet) (houtside : ∀ e ∈ outside, e.LeavesLock) :
      Locked call (.acquire g :: inside ++ .release g :: outside)
  /-- It announces events while it holds the guard. -/
  | streaming {inside : List Effect} (hguard : call.guard? = some .shared) (hstreams : call.streams = true)
      (hinside : ∀ e ∈ inside, e.LeavesLock) : Locked call (.acquire .shared :: inside ++ [.release .shared])

section

variable {call : Call} {code : Code}

theorem leavesLock_announces (events : List Event) : ∀ e ∈ events.map Effect.announce, e.LeavesLock := by
  intro e he
  obtain ⟨event, -, rfl⟩ := List.mem_map.1 he
  trivial

/-- Both ways to encode carry out the same. -/
theorem Call.locked_encode (hguard : call.guard? = some .shared) (hstreams : call.streams = false) (data : Bytes) :
    call.Locked (code.encode data).effects := by
  rw [code.encode_traced]
  show Locked _ (.acquire .shared :: [.count .encodes 1, .keepDigests _, .count .bytesEncoded data.length,
    .time .encode] ++ .release .shared :: [.announce _])
  exact .buffered hguard hstreams (by simp) (by simp)

theorem Call.locked_verify (slots : Slots) : (verify slots).Locked ((verify slots).effects code) := by
  rw [effects, code.verify_traced]
  cases code.fullSet slots with
  | error e =>
    show Locked _ (.acquire .shared :: [] ++ .release .shared :: [])
    exact .buffered rfl rfl (by simp) (by simp)
  | ok shards =>
    dsimp only
    generalize code.mismatches (shards.headD []).length shards = corrupted
    cases corrupted with
    | nil =>
      show Locked _ (.acquire .shared :: [.time .verify] ++ .release .shared :: [])
      exact .buffered rfl rfl (by simp) (by simp)
    | cons i corrupted =>
      show Locked _ (.acquire .shared :: [.count .parityMismatches (corrupted.length + 1), .time .verify] ++
        .release .shared :: [])
      exact .buffered rfl rfl (by simp) (by simp)

theorem Call.locked_decode (slots : Slots) (present : List Nat) (dataSize shardSize : Nat) :
    (decode slots present dataSize shardSize).Locked ((decode slots present dataSize shardSize).effects code) := by
  rw [effects, code.decode_traced]
  cases code.decodeShards slots present dataSize shardSize with
  | error e =>
    show Locked _ (.acquire .shared :: [.count .decodes 1] ++ .release .shared :: [])
    exact .buffered rfl rfl (by simp) (by simp)
  | ok data =>
    show Locked _ (.acquire .shared :: [.count .decodes 1, .count .bytesDecoded dataSize, .time .decode] ++
      .release .shared :: [.announce _])
    exact .buffered rfl rfl (by simp) (by simp)

theorem Call.locked_repair (slots : Slots) (present : List Nat) (dataSize shardSize : Nat) :
    (repair slots present dataSize shardSize).Locked ((repair slots present dataSize shardSize).effects code) := by
  rw [effects, code.repair_traced]
  cases code.repairShards slots present dataSize shardSize with
  | error e =>
    show Locked _ (.acquire .exclusive :: [] ++ .release .exclusive :: [])
    exact .buffered rfl rfl (by simp) (by simp)
  | ok repaired =>
    obtain ⟨rebuilt, missing⟩ := repaired
    show Locked _ (.acquire .exclusive ::
      [.count .repairs 1, .count .bytesRepaired (missing.length * shardSize), .time .repair] ++
      .release .exclusive :: if missing.isEmpty then [] else [.announce _])
    refine .buffered rfl rfl (by simp) ?_
    cases missing <;> simp

/-- A streaming call that came to its loop. -/
theorem Call.locked_streamed (hguard : call.guard? = some .shared) (hstreams : call.streams = true) (counter : Counter)
    (events : List Event) {closing : List Effect} (hclosing : ∀ e ∈ closing, e.LeavesLock) :
    call.Locked (.acquire .shared :: .count counter 1 :: events.map .announce ++ closing ++ [.release .shared]) := by
  show Locked _ (.acquire .shared :: (.count counter 1 :: events.map .announce ++ closing) ++ [.release .shared])
  refine .streaming hguard hstreams ?_
  intro e he
  rcases List.mem_append.1 he with he | he
  · rcases List.mem_cons.1 he with rfl | he
    · trivial
    · exact leavesLock_announces events e he
  · exact hclosing e he

theorem Call.locked_encodeStream (source : Source) (sinks : List Sink) (o : StreamOptions) :
    (encodeStream source sinks o).Locked ((encodeStream source sinks o).effects code) := by
  rw [effects]
  rcases Code.encodeStream_cases code source sinks o with ⟨-, e, -, heq⟩ | ⟨-, ⟨-, heq⟩ | ⟨-, r, e, -, heq⟩⟩
  · rw [heq]
    exact .free (by simp [guard?]) (by simp [Traced.fail]) fun _ => rfl
  · rw [heq]
    show Locked _ (.acquire .shared :: [.count .encodes 1] ++ [.release .shared])
    exact .streaming rfl rfl (by simp)
  · rw [heq]
    refine locked_streamed rfl rfl .encodes _ ?_
    cases e.ending r <;> simp [encodeClosing]

theorem Call.locked_decodeStream (sources : List Source) (present : List Nat) (dataSize : Nat) (sink : Sink)
    (o : StreamOptions) :
    (decodeStream sources present dataSize sink o).Locked
      ((decodeStream sources present dataSize sink o).effects code) := by
  rw [effects]
  rcases Code.decodeStream_cases code sources present dataSize sink o with
    ⟨-, e, -, heq⟩ | ⟨-, ⟨e, -, heq⟩ | ⟨-, plan, r, d, -, -, heq⟩⟩
  · rw [heq]
    exact .free (by simp [guard?]) (by simp [Traced.fail]) fun _ => rfl
  · rw [heq]
    show Locked _ (.acquire .shared :: [.count .decodes 1] ++ [.release .shared])
    exact .streaming rfl rfl (by simp)
  · rw [heq]
    refine locked_streamed rfl rfl .decodes _ ?_
    cases d.ending r <;> simp [decodeClosing]

theorem Call.locked_effects (call : Call) (code : Code) : call.Locked (call.effects code) := by
  cases call with
  | encode data => exact locked_encode rfl rfl data
  | encodeParallel data =>
    rw [effects, code.encodeParallel_eq]
    exact locked_encode rfl rfl data
  | decode slots present dataSize shardSize => exact locked_decode slots present dataSize shardSize
  | verify slots => exact locked_verify slots
  | repair slots present dataSize shardSize => exact locked_repair slots present dataSize shardSize
  | encodeStream source sinks o => exact locked_encodeStream source sinks o
  | decodeStream sources present dataSize sink o => exact locked_decodeStream sources present dataSize sink o
  | announce event => exact .free (by simp [guard?]) (leavesLock_announces [event]) (by simp [streams])

end

/-! ## Moments -/

inductive Happening where
  | announced (event : Event)
  | called (call : Call)

def Happening.isAnnounced : Happening → Bool
  | announced _ => true
  | called _ => false

/-- An event announced or a call made by an observer, with the calls in progress, innermost first. -/
structure Moment where
  within : List Call
  lock : Lock
  happening : Happening

/-- A call asks for a side of the lock that a guard held by a call around it excludes. -/
def Moment.conflicts (m : Moment) : Bool :=
  match m.happening with
  | .announced _ => false
  | .called call =>
    match call.guard? with
    | none => false
    | some g => !m.lock.admits g

/-- The one kind of call that asks for the exclusive side is a repair. -/
theorem Moment.conflicts_iff {m : Moment} (h : m.lock.held = guardsOf m.within) :
    m.conflicts = true ↔ m.within.any Call.streams = true ∧
      ∃ slots present dataSize shardSize, m.happening = .called (.repair slots present dataSize shardSize) := by
  obtain ⟨within, lock, happening⟩ := m
  cases happening with
  | announced event => simp [conflicts]
  | called call =>
    cases call <;> simp [conflicts, Call.guard?, Lock.admits_shared h, Lock.admits_exclusive h]

namespace Coder

section

variable (perform : List Effect → Coder → Coder) (moments : List Call → List Effect → Coder → List Moment)
  (within : List Call)

/-- The call that a reaction is, and all in its course, by `moments`. -/
def momentsOfReaction (c : Coder) : Reaction → List Moment
  | .call call => ⟨within, c.lock, .called call⟩ :: moments (call :: within) (call.effects c.code) c
  | _ => []

def momentsOfDelivery (event : Event) (c : Coder) (id : Nat) : List Moment :=
  match c.bus.issued[id]? with
  | none => []
  | some o =>
    if o.interest.hears event then
      putOut (react perform id) (momentsOfReaction moments within) (c.noted id event) o.reactions
    else []

def momentsOfEffect (c : Coder) : Effect → List Moment
  | .announce event =>
    ⟨within, c.lock, .announced event⟩ ::
      putOut (deliver perform event) (momentsOfDelivery perform moments within event) c c.bus.active
  | _ => []

def momentsWith (effects : List Effect) (c : Coder) : List Moment :=
  putOut (carryOut perform) (momentsOfEffect perform moments within) c effects

end

/-- What happens while the effects of the innermost call in progress are carried out. -/
def momentsNested : (depth : Nat) → (within : List Call) → List Effect → Coder → List Moment
  | 0 => momentsWith (fun _ c => c) fun _ _ _ => []
  | depth + 1 => momentsWith (performNested depth) (momentsNested depth)

def momentsIn (c : Coder) : Act → List Moment
  | .call call => ⟨[], c.lock, .called call⟩ :: momentsNested c.bus.pendingCalls [call] (call.effects c.code) c
  | _ => []

/-- All that happens in a session. -/
def moments (c : Coder) (acts : List Act) : List Moment := putOut act momentsIn c acts

/-! ## Runs that give back what they take -/

/-- `c'` is `c` after `moments`: the guards held are the same, a conflict is remembered, and at each of the moments the
guards held were those of the streaming calls in progress. At most `gained` more calls are left for observers to make. -/
structure Settles (gained : Nat) (moments : List Moment) (c c' : Coder) : Prop where
  held_eq : c'.lock.held = c.lock.held
  stuck_eq : c'.lock.stuck = (c.lock.stuck || moments.any Moment.conflicts)
  orderly : ∀ m ∈ moments, m.lock.held = guardsOf m.within
  pending_le : c'.bus.pendingCalls ≤ c.bus.pendingCalls + gained

variable {c c' c'' : Coder} {ms ms' : List Moment} {within : List Call}

/-- Nothing happens, and neither the lock nor the observers' calls change. -/
theorem Settles.quiet (hlock : c'.lock = c.lock) (hbus : c'.bus = c.bus) : Settles 0 [] c c' :=
  ⟨by rw [hlock], by rw [hlock]; exact (Bool.or_false _).symm, by simp, by rw [hbus]; exact Nat.le_refl _⟩

theorem Settles.trans {gained gained' : Nat} (h : Settles gained ms c c') (h' : Settles gained' ms' c' c'') :
    Settles (gained + gained') (ms ++ ms') c c'' where
  held_eq := h'.held_eq.trans h.held_eq
  stuck_eq := by rw [h'.stuck_eq, h.stuck_eq, List.any_append, Bool.or_assoc]
  orderly m hm := (List.mem_append.1 hm).elim (h.orderly m) (h'.orderly m)
  pending_le := by
    have := h.pending_le
    have := h'.pending_le
    omega

/-- A moment before all others, at which nothing has changed. -/
theorem Settles.cons {m : Moment} (hm : m.lock.held = guardsOf m.within) {c₁ : Coder} (hheld : c₁.lock.held = c.lock.held)
    (hstuck : c₁.lock.stuck = (c.lock.stuck || m.conflicts)) (hbus : c₁.bus = c.bus) (h : Settles 0 ms c₁ c') :
    Settles 0 (m :: ms) c c' := by
  have hfirst : Settles 0 [m] c c₁ := by
    refine ⟨hheld, ?_, by simpa using hm, by rw [hbus]; exact Nat.le_refl _⟩
    rw [hstuck, List.any_cons, List.any_nil, Bool.or_false]
  exact hfirst.trans h

/-- A guard taken and given back around `ms`, asked for at `m`. -/
theorem Settles.guarded {g : Guard} {m : Moment} (hm : m.lock.held = guardsOf m.within)
    (hconflicts : m.conflicts = !c.lock.admits g) (h : Settles 0 ms (c.settle (.acquire g)) c') :
    Settles 0 (m :: ms) c (c'.settle (.release g)) where
  held_eq := by
    show c'.lock.held.erase g = c.lock.held
    rw [h.held_eq]
    exact List.erase_cons_head g c.lock.held
  stuck_eq := by
    show c'.lock.stuck = _
    rw [h.stuck_eq, List.any_cons, hconflicts, ← Bool.or_assoc]
    rfl
  orderly := List.forall_mem_cons.2 ⟨hm, h.orderly⟩
  pending_le := h.pending_le

/-- Along a fold moments add up, as long as the observers' calls stay within a budget. -/
theorem Settles.foldl {α : Type} {step : Coder → α → Coder} {out : Coder → α → List Moment} {budget : Nat} {l : List α}
    (hstep : ∀ c, c.lock.held = guardsOf within → c.bus.pendingCalls ≤ budget → ∀ a ∈ l,
      Settles 0 (out c a) c (step c a))
    (hheld : c.lock.held = guardsOf within) (hbudget : c.bus.pendingCalls ≤ budget) :
    Settles 0 (putOut step out c l) c (l.foldl step c) := by
  induction l generalizing c with
  | nil => exact .quiet rfl rfl
  | cons a l ih =>
    have hhead := hstep c hheld hbudget a List.mem_cons_self
    have htail := ih (fun c hheld hbudget a ha => hstep c hheld hbudget a (List.mem_cons_of_mem _ ha))
      (hhead.held_eq.trans hheld) (Nat.le_trans hhead.pending_le hbudget)
    exact hhead.trans htail

/-- Within the budget `perform` carries out a call, and `moments` lists what happens meanwhile. -/
def SettlesCalls (budget : Nat) (perform : List Effect → Coder → Coder)
    (moments : List Call → List Effect → Coder → List Moment) : Prop :=
  ∀ within (call : Call) c, c.lock.held = guardsOf within → c.bus.pendingCalls < budget →
    Settles 0 (⟨within, c.lock, .called call⟩ :: moments (call :: within) (call.effects c.code) c) c
      (perform (call.effects c.code) c)

section

variable {perform : List Effect → Coder → Coder} {moments : List Call → List Effect → Coder → List Moment}
  {budget : Nat}

/-- The reactions of one observer spend their calls, of which there are no more than are left in the budget. -/
theorem settles_reactions (hcalls : SettlesCalls budget perform moments) (id : Nat) (reactions : List Reaction)
    (hheld : c.lock.held = guardsOf within) (hbudget : c.bus.pendingCalls + callsOfReactions reactions ≤ budget) :
    Settles (callsOfReactions reactions) (putOut (react perform id) (momentsOfReaction moments within) c reactions) c
      (reactions.foldl (react perform id) c) := by
  induction reactions generalizing c with
  | nil => exact .quiet rfl rfl
  | cons r reactions ih =>
    rw [callsOfReactions] at hbudget ⊢
    have hhead : Settles r.calls (momentsOfReaction moments within c r) c (react perform id c r) := by
      cases r with
      | subscribe o =>
        exact ⟨rfl, (Bool.or_false _).symm, by simp [momentsOfReaction],
          Nat.le_of_eq (EventBus.pendingCalls_subscribe c.bus o)⟩
      | unsubscribe other => exact ⟨rfl, (Bool.or_false _).symm, by simp [momentsOfReaction], Nat.le_refl _⟩
      | leave => exact ⟨rfl, (Bool.or_false _).symm, by simp [momentsOfReaction], Nat.le_refl _⟩
      | call call =>
        rw [Reaction.calls] at hbudget
        have hcall := hcalls within call c hheld (by omega)
        exact ⟨hcall.held_eq, hcall.stuck_eq, hcall.orderly, Nat.le_trans hcall.pending_le (Nat.le_succ _)⟩
    have hpending := hhead.pending_le
    exact hhead.trans (ih (hhead.held_eq.trans hheld) (by omega))

theorem settles_deliver (hcalls : SettlesCalls budget perform moments) (event : Event) (id : Nat)
    (hheld : c.lock.held = guardsOf within) (hbudget : c.bus.pendingCalls ≤ budget) :
    Settles 0 (momentsOfDelivery perform moments within event c id) c (deliver perform event c id) := by
  unfold momentsOfDelivery deliver
  cases hid : c.bus.issued[id]? with
  | none => exact .quiet rfl rfl
  | some o =>
    dsimp only
    split
    · have hspent : (c.noted id event).bus.pendingCalls + callsOfReactions o.reactions = c.bus.pendingCalls :=
        EventBus.pendingCalls_spend hid
      have hreactions := settles_reactions hcalls id o.reactions (c := c.noted id event) hheld (by omega)
      exact ⟨hreactions.held_eq, hreactions.stuck_eq, hreactions.orderly,
        Nat.le_trans hreactions.pending_le (Nat.le_of_eq hspent)⟩
    · exact .quiet rfl rfl

/-- The guards held are those of the streaming calls in progress whenever an event is announced. -/
theorem settles_announces (hcalls : SettlesCalls budget perform moments) (within : List Call) {effects : List Effect}
    (hleave : ∀ e ∈ effects, e.LeavesLock) (hheld : c.lock.held = guardsOf within)
    (hbudget : c.bus.pendingCalls ≤ budget) :
    Settles 0 (momentsWith perform moments within effects c) c (performWith perform effects c) := by
  refine Settles.foldl (fun c hheld hbudget effect heffect => ?_) hheld hbudget
  cases effect with
  | announce event =>
    refine Settles.cons hheld rfl (Bool.or_false _).symm rfl ?_
    exact Settles.foldl (fun c hheld hbudget id _ => settles_deliver hcalls event id hheld hbudget) hheld hbudget
  | acquire g => exact absurd (hleave _ heffect) id
  | release g => exact absurd (hleave _ heffect) id
  | count counter n => exact .quiet rfl rfl
  | time operation => exact .quiet rfl rfl
  | keepDigests digests => exact .quiet rfl rfl

/-- Without announcements it makes no difference what guards are held. -/
theorem settles_quiet (perform : List Effect → Coder → Coder) (moments : List Call → List Effect → Coder → List Moment)
    (within : List Call) {effects : List Effect} (hquiet : ∀ e ∈ effects, e.Quiet) (c : Coder) :
    Settles 0 (momentsWith perform moments within effects c) c (performWith perform effects c) := by
  induction effects generalizing c with
  | nil => exact .quiet rfl rfl
  | cons effect effects ih =>
    have hhead : Settles 0 (momentsOfEffect perform moments within c effect) c (carryOut perform c effect) := by
      have heffect := hquiet effect List.mem_cons_self
      cases effect with
      | announce event => cases heffect.2
      | acquire g => exact absurd heffect.1 id
      | release g => exact absurd heffect.1 id
      | count counter n => exact .quiet rfl rfl
      | time operation => exact .quiet rfl rfl
      | keepDigests digests => exact .quiet rfl rfl
    exact hhead.trans (ih (fun e he => hquiet e (List.mem_cons_of_mem _ he)) _)

theorem performWith_guarded (perform : List Effect → Coder → Coder) (g : Guard) (inside outside : List Effect)
    (c : Coder) :
    performWith perform (.acquire g :: inside ++ .release g :: outside) c =
      performWith perform outside ((performWith perform inside (c.settle (.acquire g))).settle (.release g)) := by
  simp only [performWith_eq, List.cons_append, List.foldl_cons, List.foldl_append, carryOut]

theorem momentsWith_guarded (perform : List Effect → Coder → Coder)
    (moments : List Call → List Effect → Coder → List Moment) (within : List Call) (g : Guard)
    (inside outside : List Effect) (c : Coder) :
    momentsWith perform moments within (.acquire g :: inside ++ .release g :: outside) c =
      momentsWith perform moments within inside (c.settle (.acquire g)) ++
        momentsWith perform moments within outside
          ((performWith perform inside (c.settle (.acquire g))).settle (.release g)) := by
  simp only [momentsWith, List.cons_append, putOut, putOut_append, momentsOfEffect, List.nil_append]
  rfl

/-- A call, with the calls that observers make meanwhile. -/
theorem settles_performWith (hcalls : SettlesCalls budget perform moments) (call : Call)
    (hheld : c.lock.held = guardsOf within) (hbudget : c.bus.pendingCalls ≤ budget) :
    Settles 0 (⟨within, c.lock, .called call⟩ :: momentsWith perform moments (call :: within) (call.effects c.code) c) c
      (performWith perform (call.effects c.code) c) := by
  have hlocked := call.locked_effects c.code
  generalize call.effects c.code = effects at hlocked
  cases hlocked with
  | free hguard hleave hrefused =>
    have hquiet : Moment.conflicts ⟨within, c.lock, .called call⟩ = false := by
      unfold Moment.conflicts
      dsimp only
      split
      · rfl
      · next g hg =>
        cases g with
        | shared => rw [Lock.admits_shared hheld, Bool.not_true]
        | exclusive => exact absurd hg hguard
    refine Settles.cons hheld rfl (by rw [hquiet, Bool.or_false]) rfl ?_
    cases hstreams : call.streams with
    | true =>
      rw [hrefused hstreams]
      exact .quiet rfl rfl
    | false =>
      refine settles_announces hcalls (call :: within) hleave ?_ hbudget
      rw [hheld, guardsOf_cons, hstreams]
      rfl
  | @buffered g inside outside hguard hstreams hinside houtside =>
    have hconflicts : Moment.conflicts ⟨within, c.lock, .called call⟩ = !c.lock.admits g := by
      simp only [Moment.conflicts, hguard]
    have hin := Settles.guarded (m := ⟨within, c.lock, .called call⟩) hheld hconflicts
      (settles_quiet perform moments (call :: within) hinside (c.settle (.acquire g)))
    have hout := settles_announces hcalls (call :: within) houtside
      (by rw [hin.held_eq, hheld, guardsOf_cons, hstreams]; rfl) (Nat.le_trans hin.pending_le hbudget)
    rw [momentsWith_guarded, performWith_guarded]
    exact hin.trans hout
  | @streaming inside hguard hstreams hinside =>
    have hconflicts : Moment.conflicts ⟨within, c.lock, .called call⟩ = !c.lock.admits .shared := by
      simp only [Moment.conflicts, hguard]
    have hin := Settles.guarded (m := ⟨within, c.lock, .called call⟩) hheld hconflicts
      (settles_announces hcalls (call :: within) (c := c.settle (.acquire .shared)) hinside
        (by rw [guardsOf_cons, hstreams, ← hheld]; rfl) hbudget)
    rw [momentsWith_guarded, performWith_guarded]
    exact hin.trans (.quiet rfl rfl)

end

/-- With as much depth as calls are still to be made, every call that observers make is carried out. -/
theorem settles_performNested (depth : Nat) : SettlesCalls (depth + 1) (performNested depth) (momentsNested depth) := by
  intro within call c hheld hlt
  induction depth generalizing within call c with
  | zero =>
    have hnone : SettlesCalls 0 (fun _ c => c) fun _ _ _ => [] := fun _ _ _ _ hlt => absurd hlt (Nat.not_lt_zero _)
    exact settles_performWith hnone call hheld (Nat.le_of_lt_succ hlt)
  | succ depth ih => exact settles_performWith ih call hheld (Nat.le_of_lt_succ hlt)

theorem settles_act (hheld : c.lock.held = []) (a : Act) : ∃ gained, Settles gained (c.momentsIn a) c (c.act a) := by
  cases a with
  | call call => exact ⟨0, settles_performNested c.bus.pendingCalls [] call c hheld (Nat.lt_succ_self _)⟩
  | subscribe o =>
    exact ⟨_, rfl, (Bool.or_false _).symm, by simp [momentsIn], Nat.le_of_eq (EventBus.pendingCalls_subscribe c.bus o)⟩
  | unsubscribe id => exact ⟨0, rfl, (Bool.or_false _).symm, by simp [momentsIn], Nat.le_refl _⟩

/-- Between the acts of a session no guard is held. -/
theorem settles_after (hheld : c.lock.held = []) (acts : List Act) :
    ∃ gained, Settles gained (c.moments acts) c (c.after acts) := by
  unfold after moments
  induction acts generalizing c with
  | nil => exact ⟨0, .quiet rfl rfl⟩
  | cons a acts ih =>
    obtain ⟨gained, hhead⟩ := settles_act hheld a
    obtain ⟨gained', htail⟩ := ih (hhead.held_eq.trans hheld)
    exact ⟨gained + gained', hhead.trans htail⟩

/-- **Locking**: whenever an event is announced or a call is made, in whatever nesting of calls that observers make, the
guards held are one shared guard for each streaming call in progress. So every call gets the side of the lock that it
asks for, unless it is a repair that an observer makes in the course of a streaming call, and after the session no guard
is held. -/
theorem lock_after (code : Code) (thresholds : Thresholds Float) (acts : List Act) :
    let start := fresh code thresholds
    let c := start.after acts
    (∀ m ∈ start.moments acts,
      m.lock.held = guardsOf m.within ∧ m.lock.admits .shared = true ∧
      m.lock.admits .exclusive = !m.within.any Call.streams ∧
      (m.conflicts = true ↔ m.within.any Call.streams = true ∧
        ∃ slots present dataSize shardSize, m.happening = .called (.repair slots present dataSize shardSize))) ∧
    c.lock.held = [] ∧ (c.lock.stuck = true ↔ ∃ m ∈ start.moments acts, m.conflicts = true) := by
  obtain ⟨_, hsettles⟩ := settles_after (c := fresh code thresholds) rfl acts
  refine ⟨fun m hm => ?_, hsettles.held_eq, ?_⟩
  · have hheld := hsettles.orderly m hm
    exact ⟨hheld, Lock.admits_shared hheld, Lock.admits_exclusive hheld, Moment.conflicts_iff hheld⟩
  · rw [hsettles.stuck_eq]
    exact (Iff.of_eq (congrArg (· = true) (Bool.false_or _))).trans List.any_eq_true

/-- An observer of a streaming encode repairs parity when it hears of the first chunk: the shared guard of the encode is
still held, so the repair never gets the exclusive one. -/
theorem lock_repair_during_encodeStream : ∃ (code : Code) (acts : List Act),
    code.scheme = ⟨1, 1⟩ ∧
    acts = [.subscribe (.mk .encodings [[.call (.repair [some [7], none] [0] 1 1)]]),
      .call (.encodeStream { rest := [7] } [{}, {}] { chunk := 4 })] ∧
    let start := fresh code .standard
    (∃ m ∈ start.moments acts, ∃ event, m.happening = .announced event ∧ m.lock.admits .exclusive = false) ∧
    (∃ m ∈ start.moments acts, m.conflicts = true) ∧ (start.after acts).lock.stuck = true := by
  let code := Code.ofValid ⟨1, 1⟩ (by decide)
  let acts : List Act := [.subscribe (.mk .encodings [[.call (.repair [some [7], none] [0] 1 1)]]),
    .call (.encodeStream { rest := [7] } [{}, {}] { chunk := 4 })]
  have hannounced : ((fresh code .standard).moments acts).any
      (fun m => m.happening.isAnnounced && !m.lock.admits .exclusive) = true := by decide +kernel
  obtain ⟨m, hm, hexclusive⟩ := List.any_eq_true.1 hannounced
  obtain ⟨hisAnnounced, hexcluded⟩ := Bool.and_eq_true_iff.1 hexclusive
  obtain ⟨within, lock, event | call⟩ := m
  · refine ⟨code, acts, rfl, rfl, ⟨_, hm, event, rfl, ?_⟩, ?_, ?_⟩
    · simpa using hexcluded
    · exact List.any_eq_true.1 (by decide +kernel)
    · decide +kernel
  · cases hisAnnounced

end Coder

end ShardCoding
