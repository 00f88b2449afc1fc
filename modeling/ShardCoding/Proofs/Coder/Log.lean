import ShardCoding.Proofs.Coder.Delivery

/-!
# The log of a session

What happens at the bus of a coder is written down as a big-step relation, in which a call that an observer makes runs to
its end before the next reaction, however deep such calls nest. No depth is given to it beforehand.

* `Occurrence`, `Entry` : a change of the subscriptions, or a stage of an emission, with the number of observers then;
* `Coder.Runs` : reactions, deliveries and effects with the entries that they bring, in order; `Coder.Session` : acts;
* `Coder.Runs.keeps` : what a run leaves: the subscriptions evolve, the journal gets what was heard, and the calls still
  to be made are bounded;
* `Coder.exists_session` : what a coder carries out with bounded depth is such a run.
-/

namespace ShardCoding

/-- What happens at a bus. -/
inductive Occurrence where
  /-- An observer was subscribed and got this id. -/
  | subscribed (id : Nat)
  /-- An id was to be unsubscribed, and `removed` was answered. -/
  | unsubscribed (id : Nat) (removed : Bool)
  /-- An emission begins. -/
  | began (event : Event)
  /-- The observer with this id is told of an event, which may be none of its interest. -/
  | invoked (id : Nat) (event : Event) (heard : Bool)
  /-- The innermost emission that has begun ends. -/
  | ended
  deriving DecidableEq, Repr

/-- An occurrence, with the number of observers just before it. -/
structure Entry where
  size : Nat
  what : Occurrence
  deriving DecidableEq, Repr

/-- The deliveries among the entries, without those that are none of an observer's interest. -/
def heardIn (log : List Entry) : List (Nat × Event) :=
  log.filterMap fun e =>
    match e.what with
    | .invoked id event true => some (id, event)
    | _ => none

theorem heardIn_append (log log' : List Entry) : heardIn (log ++ log') = heardIn log ++ heardIn log' :=
  List.filterMap_append

/-- An act is what an observer may do too. -/
def Act.reaction : Act → Reaction
  | call c => .call c
  | subscribe o => .subscribe o
  | unsubscribe id => .unsubscribe id

namespace Coder

/-- What is left to do. -/
inductive Task where
  /-- The reactions of observer `id`. -/
  | reactions (id : Nat) (rs : List Reaction)
  /-- The event has yet to be delivered to these observers. -/
  | deliveries (event : Event) (ids : List Nat)
  | effects (es : List Effect)

/-- The calls that the task itself has observers make. -/
def Task.calls : Task → Nat
  | reactions _ rs => callsOfReactions rs
  | _ => 0

def entry (c : Coder) (what : Occurrence) : Entry := ⟨c.bus.size, what⟩

/-- The task takes `c` to `c'` and brings these entries. An emission is made to the observers that are subscribed when it
begins, one after another, and ends after the last of them. -/
inductive Runs : Task → Coder → List Entry → Coder → Prop where
  | noReaction {id : Nat} {c : Coder} : Runs (.reactions id []) c [] c
  | subscribe {id : Nat} {o : Observer} {rs : List Reaction} {c c' : Coder} {log : List Entry}
      (rest : Runs (.reactions id rs) { c with bus := c.bus.subscribe o } log c') :
      Runs (.reactions id (.subscribe o :: rs)) c (c.entry (.subscribed c.bus.issued.length) :: log) c'
  | unsubscribe {id other : Nat} {rs : List Reaction} {c c' : Coder} {log : List Entry}
      (rest : Runs (.reactions id rs) { c with bus := c.bus.unsubscribe other } log c') :
      Runs (.reactions id (.unsubscribe other :: rs)) c
        (c.entry (.unsubscribed other (c.bus.isActive other)) :: log) c'
  | leave {id : Nat} {rs : List Reaction} {c c' : Coder} {log : List Entry}
      (rest : Runs (.reactions id (.unsubscribe id :: rs)) c log c') : Runs (.reactions id (.leave :: rs)) c log c'
  | call {id : Nat} {call : Call} {rs : List Reaction} {c c₁ c' : Coder} {log log' : List Entry}
      (during : Runs (.effects (call.effects c.code)) c log c₁) (rest : Runs (.reactions id rs) c₁ log' c') :
      Runs (.reactions id (.call call :: rs)) c (log ++ log') c'
  | noDelivery {event : Event} {c : Coder} : Runs (.deliveries event []) c [] c
  | heard {event : Event} {id : Nat} {ids : List Nat} {o : Observer} {c c₁ c' : Coder} {log log' : List Entry}
      (issued : c.bus.issued[id]? = some o) (hears : o.interest.hears event = true)
      (during : Runs (.reactions id o.reactions) (c.noted id event) log c₁)
      (rest : Runs (.deliveries event ids) c₁ log' c') :
      Runs (.deliveries event (id :: ids)) c (c.entry (.invoked id event true) :: log ++ log') c'
  | ignored {event : Event} {id : Nat} {ids : List Nat} {o : Observer} {c c' : Coder} {log : List Entry}
      (issued : c.bus.issued[id]? = some o) (ignores : o.interest.hears event = false)
      (rest : Runs (.deliveries event ids) c log c') :
      Runs (.deliveries event (id :: ids)) c (c.entry (.invoked id event false) :: log) c'
  | noEffect {c : Coder} : Runs (.effects []) c [] c
  | announce {event : Event} {es : List Effect} {c c₁ c' : Coder} {log log' : List Entry}
      (during : Runs (.deliveries event c.bus.active) c log c₁) (rest : Runs (.effects es) c₁ log' c') :
      Runs (.effects (.announce event :: es)) c (c.entry (.began event) :: log ++ c₁.entry .ended :: log') c'
  | settle {e : Effect} {es : List Effect} {c c' : Coder} {log : List Entry} (silent : e.event? = none)
      (rest : Runs (.effects es) (c.settle e) log c') : Runs (.effects (e :: es)) c log c'

/-- The acts of a session are reactions to nothing, so `0` stands for no observer. -/
def Session (c : Coder) (acts : List Act) (log : List Entry) (c' : Coder) : Prop :=
  Runs (.reactions 0 (acts.map Act.reaction)) c log c'

/-! ## What a run leaves -/

/-- `c'` is `c` after these entries, with at most `gained` more calls left for observers to make. -/
structure Keeps (gained : Nat) (log : List Entry) (c c' : Coder) : Prop where
  evolves : c.bus.Evolves c'.bus
  deliveries_eq : c'.journal.deliveries = c.journal.deliveries ++ heardIn log
  pending_le : c'.bus.pendingCalls ≤ c.bus.pendingCalls + gained

variable {c c' c₁ : Coder} {log log' : List Entry} {task : Task}

theorem Keeps.refl (c : Coder) : Keeps 0 [] c c := ⟨.refl _, (List.append_nil _).symm, Nat.le_refl _⟩

theorem Keeps.trans {gained gained' : Nat} (h : Keeps gained log c c₁) (h' : Keeps gained' log' c₁ c') :
    Keeps (gained + gained') (log ++ log') c c' where
  evolves := h.evolves.trans h'.evolves
  deliveries_eq := by rw [h'.deliveries_eq, h.deliveries_eq, heardIn_append, List.append_assoc]
  pending_le := by
    have := h.pending_le
    have := h'.pending_le
    omega

/-- An entry that is no delivery, at which at most the bus changes. -/
theorem Keeps.cons {gained gained' : Nat} {bus : EventBus} {e : Entry} (hevolves : c.bus.Evolves bus)
    (hpending : bus.pendingCalls ≤ c.bus.pendingCalls + gained) (hsilent : heardIn [e] = [])
    (h : Keeps gained' log { c with bus := bus } c') : Keeps (gained + gained') (e :: log) c c' := by
  have hentry : Keeps gained [e] c { c with bus := bus } :=
    ⟨hevolves, by rw [hsilent, List.append_nil], hpending⟩
  exact hentry.trans h

theorem keeps_settle (c : Coder) (e : Effect) : Keeps 0 [] c (c.settle e) := by
  cases e <;> exact ⟨.refl _, (List.append_nil _).symm, Nat.le_refl _⟩

/-- Hearing an event spends the calls that the reactions to it make. -/
theorem Keeps.noted {event : Event} {id : Nat} {o : Observer} (hissued : c.bus.issued[id]? = some o)
    (h : Keeps (callsOfReactions o.reactions) log (c.noted id event) c') :
    Keeps 0 (c.entry (.invoked id event true) :: log) c c' where
  evolves := (c.bus.evolves_spend id).trans h.evolves
  deliveries_eq := by
    rw [h.deliveries_eq]
    exact List.append_assoc ..
  pending_le := by
    have hspent : (c.noted id event).bus.pendingCalls + callsOfReactions o.reactions = c.bus.pendingCalls :=
      EventBus.pendingCalls_spend hissued
    have hpending := h.pending_le
    omega

theorem Runs.keeps (h : Runs task c log c') : Keeps task.calls log c c' := by
  induction h with
  | noReaction => exact .refl _
  | @subscribe id o rs c c' log _ ih =>
    exact .cons (c.bus.evolves_subscribe o) (Nat.le_of_eq (EventBus.pendingCalls_subscribe c.bus o)) rfl ih
  | @unsubscribe id other rs c c' log _ ih =>
    exact .cons (c.bus.evolves_unsubscribe other) (Nat.le_refl _) rfl ih
  | leave _ ih => exact ih
  | call _ _ ihduring ihrest =>
    have h := ihduring.trans ihrest
    exact ⟨h.evolves, h.deliveries_eq, Nat.le_trans h.pending_le (by simp only [Task.calls, callsOfReactions]; omega)⟩
  | noDelivery => exact .refl _
  | heard issued _ _ _ ihduring ihrest => exact ihduring.noted issued |>.trans ihrest
  | @ignored event id ids o c c' log _ _ _ ih => exact .cons (.refl c.bus) (Nat.le_refl _) rfl ih
  | noEffect => exact .refl _
  | @announce event es c c₁ c' log log' _ _ ihduring ihrest =>
    have hbegan : Keeps 0 (c.entry (.began event) :: log) c c₁ := .cons (.refl c.bus) (Nat.le_refl _) rfl ihduring
    have hended : Keeps 0 (c₁.entry .ended :: log') c₁ c' := .cons (.refl c₁.bus) (Nat.le_refl _) rfl ihrest
    exact hbegan.trans hended
  | @settle e es c c' log _ _ ih => exact (keeps_settle c e).trans ih

/-! ## What a coder carries out -/

/-- Within the budget `perform` carries out effects as a run. -/
def Realizes (budget : Nat) (perform : List Effect → Coder → Coder) : Prop :=
  ∀ es c, c.bus.Sound → c.bus.pendingCalls < budget → ∃ log, Runs (.effects es) c log (perform es c)

section

variable {perform : List Effect → Coder → Coder} {budget : Nat} (hperform : Realizes budget perform)
include hperform

theorem exists_runs_reactions (id : Nat) (rs : List Reaction) (hsound : c.bus.Sound)
    (hbudget : c.bus.pendingCalls + callsOfReactions rs ≤ budget) :
    ∃ log, Runs (.reactions id rs) c log (rs.foldl (react perform id) c) := by
  induction rs generalizing c with
  | nil => exact ⟨[], .noReaction⟩
  | cons r rs ih =>
    rw [callsOfReactions] at hbudget
    cases r with
    | subscribe o =>
      obtain ⟨log, hrest⟩ := ih (c := { c with bus := c.bus.subscribe o })
        ((c.bus.evolves_subscribe o).sound hsound) (by
          show (c.bus.subscribe o).pendingCalls + _ ≤ _
          rw [EventBus.pendingCalls_subscribe]
          rw [Reaction.calls] at hbudget
          omega)
      exact ⟨_, .subscribe hrest⟩
    | unsubscribe other =>
      obtain ⟨log, hrest⟩ := ih (c := { c with bus := c.bus.unsubscribe other })
        ((c.bus.evolves_unsubscribe other).sound hsound) (by rwa [Reaction.calls, Nat.zero_add] at hbudget)
      exact ⟨_, .unsubscribe hrest⟩
    | leave =>
      obtain ⟨log, hrest⟩ := ih (c := { c with bus := c.bus.unsubscribe id })
        ((c.bus.evolves_unsubscribe id).sound hsound) (by rwa [Reaction.calls, Nat.zero_add] at hbudget)
      exact ⟨_, .leave (.unsubscribe hrest)⟩
    | call call =>
      rw [Reaction.calls] at hbudget
      obtain ⟨log, hduring⟩ := hperform (call.effects c.code) c hsound (by omega)
      have hkeeps := hduring.keeps
      have hpending := hkeeps.pending_le
      obtain ⟨log', hrest⟩ := ih (hkeeps.evolves.sound hsound) (by simp only [Task.calls] at hpending; omega)
      exact ⟨_, .call hduring hrest⟩

/-- The ids told of an event were issued, and stay so while observers before them react. -/
theorem exists_runs_deliveries (event : Event) {ids : List Nat} (hsound : c.bus.Sound)
    (hissued : ∀ id ∈ ids, ∃ interest, c.bus.Issued id interest) (hbudget : c.bus.pendingCalls ≤ budget) :
    ∃ log, Runs (.deliveries event ids) c log (ids.foldl (deliver perform event) c) := by
  induction ids generalizing c with
  | nil => exact ⟨[], .noDelivery⟩
  | cons id ids ih =>
    obtain ⟨⟨_, o, ho, -⟩, hlater⟩ := List.forall_mem_cons.1 hissued
    rw [List.foldl_cons, deliver, ho]
    dsimp only
    by_cases hhears : o.interest.hears event = true
    · have hspent : (c.noted id event).bus.pendingCalls + callsOfReactions o.reactions = c.bus.pendingCalls :=
        EventBus.pendingCalls_spend ho
      obtain ⟨log, hduring⟩ := exists_runs_reactions hperform id o.reactions (c := c.noted id event)
        ((c.bus.evolves_spend id).sound hsound) (by omega)
      have hkeeps := hduring.keeps.noted ho
      obtain ⟨log', hrest⟩ := ih (hkeeps.evolves.sound hsound)
        (fun other hother => (hlater other hother).imp fun interest => hkeeps.evolves.issued other interest)
        (Nat.le_trans hkeeps.pending_le hbudget)
      rw [if_pos hhears]
      exact ⟨_, .heard ho hhears hduring hrest⟩
    · obtain ⟨log, hrest⟩ := ih hsound hlater hbudget
      rw [if_neg hhears]
      exact ⟨_, .ignored ho (Bool.eq_false_iff.2 hhears) hrest⟩

theorem exists_runs_effects (es : List Effect) (hsound : c.bus.Sound) (hbudget : c.bus.pendingCalls ≤ budget) :
    ∃ log, Runs (.effects es) c log (performWith perform es c) := by
  rw [performWith_eq]
  induction es generalizing c with
  | nil => exact ⟨[], .noEffect⟩
  | cons e es ih =>
    have hsettle (hsilent : e.event? = none) (hcarry : carryOut perform c e = c.settle e) :
        ∃ log, Runs (.effects (e :: es)) c log ((e :: es).foldl (carryOut perform) c) := by
      have hkeeps := keeps_settle c e
      obtain ⟨log, hrest⟩ := ih (hkeeps.evolves.sound hsound) (Nat.le_trans hkeeps.pending_le hbudget)
      rw [List.foldl_cons, hcarry]
      exact ⟨log, .settle hsilent hrest⟩
    cases e with
    | announce event =>
      have hissued : ∀ id ∈ c.bus.active, ∃ interest, c.bus.Issued id interest := fun id hid =>
        (hsound.exists_issued hid).imp' Observer.interest fun o ho => ⟨o, ho, rfl⟩
      obtain ⟨log, hduring⟩ := exists_runs_deliveries hperform event hsound hissued hbudget
      have hkeeps := hduring.keeps
      obtain ⟨log', hrest⟩ := ih (hkeeps.evolves.sound hsound) (Nat.le_trans hkeeps.pending_le hbudget)
      exact ⟨_, .announce hduring hrest⟩
    | _ => exact hsettle rfl rfl

end

/-- With as much depth as calls are still to be made, nested calls run to their end. -/
theorem realizes_performNested (depth : Nat) : Realizes (depth + 1) (performNested depth) := by
  intro es c hsound hlt
  induction depth generalizing es c with
  | zero =>
    have hnone : Realizes 0 fun _ c => c := fun _ _ _ hlt => absurd hlt (Nat.not_lt_zero _)
    exact exists_runs_effects hnone es hsound (Nat.le_of_lt_succ hlt)
  | succ depth ih => exact exists_runs_effects ih es hsound (Nat.le_of_lt_succ hlt)

theorem exists_runs_perform (es : List Effect) (hsound : c.bus.Sound) :
    ∃ log, Runs (.effects es) c log (c.perform es) :=
  realizes_performNested c.bus.pendingCalls es c hsound (Nat.lt_succ_self _)

/-- Every session is a run. -/
theorem exists_session (hsound : c.bus.Sound) (acts : List Act) : ∃ log, Session c acts log (c.after acts) := by
  unfold Session after
  induction acts generalizing c with
  | nil => exact ⟨[], .noReaction⟩
  | cons a acts ih =>
    obtain ⟨log', hrest⟩ := ih (c := c.act a) ((evolves_act c a).sound hsound)
    cases a with
    | call call =>
      obtain ⟨log, hduring⟩ := exists_runs_perform (call.effects c.code) hsound
      exact ⟨_, .call hduring hrest⟩
    | subscribe o => exact ⟨_, .subscribe hrest⟩
    | unsubscribe id => exact ⟨_, .unsubscribe hrest⟩

end Coder

end ShardCoding
