import Mathlib.Data.List.Induction
import ShardCoding.Proofs.Coder.Log

/-!
# What an emission reaches

* `invocations` : whom an emission tells itself, read from the log after its beginning; `Coder.Runs.invocations_append` :
  emissions within it leave nothing there;
* `Registry` : the ids issued and those subscribed; `Registry.Traces` : a log as a flat sequence of steps of it, whatever
  nesting it comes from (`Coder.Runs.traces`);
* `Registered` : an id subscribed and not unsubscribed since; `Reflects` : the registry after a log, told by the log;
* `Lawful`, `Coder.emissions_after` : in every session an emission tells those registered when it begins.
-/

namespace ShardCoding

/-! ## Emissions within emissions -/

/-- What is told by the emission that began last, `depth` emissions within it aside, up to where it ends. -/
def invocations (depth : Nat) : List Entry → List (Nat × Event)
  | [] => []
  | e :: rest =>
    match e.what with
    | .began _ => invocations (depth + 1) rest
    | .ended =>
      match depth with
      | 0 => []
      | depth + 1 => invocations depth rest
    | .invoked id event _ => (if depth = 0 then [(id, event)] else []) ++ invocations depth rest
    | .subscribed _ => invocations depth rest
    | .unsubscribed _ _ => invocations depth rest

namespace Coder

/-- What the task itself tells observers. -/
def Task.tells : Task → List (Nat × Event)
  | deliveries event ids => ids.map (·, event)
  | _ => []

variable {c c' : Coder} {log : List Entry} {task : Task}

/-- A run tells what its task does, and as seen from an emission around it, nothing. -/
theorem Runs.invocations_append (h : Runs task c log c') (depth : Nat) (rest : List Entry) :
    invocations depth (log ++ rest) = (if depth = 0 then task.tells else []) ++ invocations depth rest := by
  induction h generalizing depth rest with
  | noReaction => simp [Task.tells]
  | subscribe _ ih => exact ih depth rest
  | unsubscribe _ ih => exact ih depth rest
  | leave _ ih => exact ih depth rest
  | call _ _ ihduring ihrest =>
    rw [List.append_assoc, ihduring, ihrest]
    simp [Task.tells]
  | noDelivery => simp [Task.tells]
  | @heard event id ids o c c₁ c' log log' _ _ _ _ ihduring ihrest =>
    rw [List.append_assoc]
    show (if depth = 0 then [(id, event)] else []) ++ invocations depth (log ++ (log' ++ rest)) = _
    rw [ihduring, ihrest]
    split <;> simp [Task.tells]
  | @ignored event id ids o c c' log _ _ _ ih =>
    show (if depth = 0 then [(id, event)] else []) ++ invocations depth (log ++ rest) = _
    rw [ih]
    split <;> simp [Task.tells]
  | noEffect => simp [Task.tells]
  | @announce event es c c₁ c' log log' _ _ ihduring ihrest =>
    rw [List.append_assoc]
    show invocations (depth + 1) (log ++ (c₁.entry .ended :: (log' ++ rest))) = _
    rw [ihduring]
    show [] ++ invocations depth (log' ++ rest) = _
    rw [ihrest]
    simp [Task.tells]
  | settle _ _ ih => exact ih depth rest

end Coder

/-! ## The registry -/

/-- How many ids were issued, and those subscribed, in the order of subscription. -/
structure Registry where
  issued : Nat
  active : List Nat

def EventBus.registry (b : EventBus) : Registry := ⟨b.issued.length, b.active⟩

namespace Registry

def after (r : Registry) : Occurrence → Registry
  | .subscribed _ => ⟨r.issued + 1, r.active ++ [r.issued]⟩
  | .unsubscribed id _ => ⟨r.issued, r.active.filter (· ≠ id)⟩
  | _ => r

/-- What entry `e` says is right where the registry is `r` and `rest` follows. -/
def Admits (r : Registry) (e : Entry) (rest : List Entry) : Prop :=
  e.size = r.active.length ∧
  match e.what with
  | .subscribed id => id = r.issued
  | .unsubscribed id removed => removed = true ↔ id ∈ r.active
  | .began event => ∀ more, invocations 0 (rest ++ more) = r.active.map (·, event)
  | .invoked _ _ _ => True
  | .ended => True

/-- The log takes `r` to `r'` step by step. -/
inductive Traces : Registry → List Entry → Registry → Prop where
  | nil {r : Registry} : Traces r [] r
  | cons {r r' : Registry} {e : Entry} {rest : List Entry} (admits : r.Admits e rest)
      (traces : Traces (r.after e.what) rest r') : Traces r (e :: rest) r'

variable {r r' r'' : Registry} {log log' : List Entry}

theorem Admits.append {e : Entry} {rest : List Entry} (h : r.Admits e rest) (more : List Entry) :
    r.Admits e (rest ++ more) := by
  obtain ⟨size, what⟩ := e
  cases what with
  | began event => exact ⟨h.1, fun more' => by rw [List.append_assoc]; exact h.2 _⟩
  | _ => exact h

theorem Traces.append (h : Traces r log r') (h' : Traces r' log' r'') : Traces r (log ++ log') r'' := by
  induction h with
  | nil => exact h'
  | cons admits _ ih => exact .cons (admits.append _) (ih h')

end Registry

@[simp] theorem EventBus.registry_subscribe (b : EventBus) (o : Observer) :
    (b.subscribe o).registry = ⟨b.registry.issued + 1, b.registry.active ++ [b.registry.issued]⟩ := by
  simp [registry, subscribe]

@[simp] theorem EventBus.registry_spend (b : EventBus) (id : Nat) : (b.spend id).registry = b.registry := by
  simp [registry, spend]

/-- A run, whatever its nesting, is a flat trace of the registry. -/
theorem Coder.Runs.traces {task : Coder.Task} {c c' : Coder} {log : List Entry} (h : Runs task c log c') :
    Registry.Traces c.bus.registry log c'.bus.registry := by
  have hsettle : ∀ (c : Coder) e, (c.settle e).bus = c.bus := fun c e => by cases e <;> rfl
  induction h with
  | noReaction => exact .nil
  | @subscribe id o rs c c' log _ ih =>
    rw [EventBus.registry_subscribe] at ih
    exact .cons ⟨rfl, rfl⟩ ih
  | unsubscribe _ ih => exact .cons ⟨rfl, List.contains_iff_mem⟩ ih
  | leave _ ih => exact ih
  | call _ _ ihduring ihrest => exact ihduring.append ihrest
  | noDelivery => exact .nil
  | @heard event id ids o c c₁ c' log log' _ _ _ _ ihduring ihrest =>
    have hnoted : (c.noted id event).bus.registry = c.bus.registry := EventBus.registry_spend c.bus id
    rw [hnoted] at ihduring
    exact .cons ⟨rfl, trivial⟩ (ihduring.append ihrest)
  | ignored _ _ _ ih => exact .cons ⟨rfl, trivial⟩ ih
  | noEffect => exact .nil
  | @announce event es c c₁ c' log log' hduring _ ihduring ihrest =>
    have hended : Registry.Traces c₁.bus.registry (c₁.entry .ended :: log') c'.bus.registry :=
      .cons ⟨rfl, trivial⟩ ihrest
    refine .cons ⟨rfl, fun more => ?_⟩ (ihduring.append hended)
    show invocations 0 (log ++ c₁.entry .ended :: log' ++ more) = _
    rw [List.append_assoc, hduring.invocations_append]
    exact List.append_nil _
  | settle _ _ ih =>
    rw [hsettle] at ih
    exact ih

/-! ## The registry, told by the log -/

def Occurrence.subscribes : Occurrence → Bool
  | subscribed _ => true
  | _ => false

def Occurrence.removes : Occurrence → Bool
  | unsubscribed _ removed => removed
  | _ => false

/-- The number of subscriptions. -/
def subscriptions (log : List Entry) : Nat := log.countP (·.what.subscribes)

/-- The number of times that an observer was removed. -/
def removals (log : List Entry) : Nat := log.countP (·.what.removes)

theorem subscriptions_append (log log' : List Entry) :
    subscriptions (log ++ log') = subscriptions log + subscriptions log' :=
  List.countP_append

theorem subscriptions_concat (log : List Entry) (e : Entry) :
    subscriptions (log ++ [e]) = subscriptions log + e.what.subscribes.toNat := by
  rw [subscriptions, List.countP_append, List.countP_singleton]
  cases e.what.subscribes <;> rfl

theorem removals_concat (log : List Entry) (e : Entry) :
    removals (log ++ [e]) = removals log + e.what.removes.toNat := by
  rw [removals, List.countP_append, List.countP_singleton]
  cases e.what.removes <;> rfl

/-- The id has been subscribed, and not been unsubscribed since. -/
def Registered (log : List Entry) (id : Nat) : Prop :=
  ∃ before size after, log = before ++ ⟨size, .subscribed id⟩ :: after ∧
    ∀ e ∈ after, ∀ removed, e.what ≠ .unsubscribed id removed

theorem registered_concat {log : List Entry} {e : Entry} {id : Nat} : Registered (log ++ [e]) id ↔
    e.what = .subscribed id ∨ Registered log id ∧ ∀ removed, e.what ≠ .unsubscribed id removed := by
  constructor
  · rintro ⟨before, size, after, hsplit, hnone⟩
    rcases List.eq_nil_or_concat after with rfl | ⟨after, last, rfl⟩
    · obtain ⟨-, hlast⟩ := List.append_inj' hsplit rfl
      rw [List.singleton_inj.1 hlast]
      exact Or.inl rfl
    · rw [List.concat_eq_append, ← List.cons_append, ← List.append_assoc] at hsplit
      obtain ⟨rfl, hlast⟩ := List.append_inj' hsplit rfl
      obtain rfl := List.singleton_inj.1 hlast
      refine Or.inr ⟨⟨before, size, after, rfl, fun e' he' => hnone e' ?_⟩, hnone e ?_⟩ <;> simp_all
  · rintro (he | ⟨⟨before, size, after, rfl, hnone⟩, he⟩)
    · exact ⟨log, e.size, [], by rw [← he], by simp⟩
    · refine ⟨before, size, after ++ [e], by simp, fun e' he' => ?_⟩
      rcases List.mem_append.1 he' with h | h
      · exact hnone e' h
      · rwa [List.mem_singleton.1 h]

/-- What the log tells of the registry after it. -/
structure Reflects (log : List Entry) (r : Registry) : Prop where
  issued : r.issued = subscriptions log
  size : r.active.length + removals log = subscriptions log
  sorted : r.active.Pairwise (· < ·)
  lt : ∀ id ∈ r.active, id < r.issued
  mem_iff : ∀ id, id ∈ r.active ↔ Registered log id

namespace Reflects

variable {log rest : List Entry} {r : Registry} {e : Entry}

theorem nil : Reflects [] ⟨0, []⟩ := by
  refine ⟨rfl, rfl, .nil, fun _ h => absurd h List.not_mem_nil, fun id => ⟨fun h => absurd h List.not_mem_nil, ?_⟩⟩
  rintro ⟨before, size, after, hsplit, -⟩
  simp at hsplit

/-- An entry that changes no subscriptions. -/
theorem quiet (h : Reflects log r) (hsubscribes : ∀ id, e.what ≠ .subscribed id)
    (hunsubscribes : ∀ id removed, e.what ≠ .unsubscribed id removed) : Reflects (log ++ [e]) r := by
  have hcounts : e.what.subscribes = false ∧ e.what.removes = false := by
    cases hwhat : e.what with
    | subscribed id => exact absurd hwhat (hsubscribes id)
    | unsubscribed id removed => exact absurd hwhat (hunsubscribes id removed)
    | _ => exact ⟨rfl, rfl⟩
  have hsubscriptions := subscriptions_concat log e
  have hremovals := removals_concat log e
  rw [hcounts.1] at hsubscriptions
  rw [hcounts.2] at hremovals
  refine ⟨h.issued.trans hsubscriptions.symm, ?_, h.sorted, h.lt, fun id => ?_⟩
  · rw [hremovals, hsubscriptions]
    exact h.size
  · rw [registered_concat, h.mem_iff]
    exact ⟨fun hid => Or.inr ⟨hid, hunsubscribes id⟩, fun hid => (hid.resolve_left (hsubscribes id)).1⟩

theorem subscribe (h : Reflects log r) (size : Nat) :
    Reflects (log ++ [⟨size, .subscribed r.issued⟩]) ⟨r.issued + 1, r.active ++ [r.issued]⟩ := by
  have hsubscriptions := subscriptions_concat log ⟨size, .subscribed r.issued⟩
  have hremovals := removals_concat log ⟨size, .subscribed r.issued⟩
  refine ⟨by rw [hsubscriptions, h.issued]; rfl, ?_, ?_, fun id hid => ?_, fun id => ?_⟩
  · rw [hsubscriptions, hremovals, ← h.size, List.length_append]
    show _ + 1 + (_ + 0) = _ + _ + 1
    omega
  · refine List.pairwise_append.2 ⟨h.sorted, List.pairwise_singleton _ _, fun id hid other hother => ?_⟩
    rw [List.mem_singleton.1 hother]
    exact h.lt id hid
  · rcases List.mem_append.1 hid with hold | hnew
    · exact Nat.lt_succ_of_lt (h.lt id hold)
    · rw [List.mem_singleton.1 hnew]
      exact Nat.lt_succ_self _
  · rw [registered_concat, List.mem_append, h.mem_iff, List.mem_singleton]
    constructor
    · rintro (hid | rfl)
      · exact Or.inr ⟨hid, fun _ => nofun⟩
      · exact Or.inl rfl
    · rintro (hid | hid)
      · exact Or.inr (Occurrence.subscribed.inj hid).symm
      · exact Or.inl hid.1

/-- Removing an id shortens the list by one exactly if it is there. -/
theorem length_filter_ne {ids : List Nat} (hnodup : ids.Nodup) {id : Nat} {removed : Bool}
    (hremoved : removed = true ↔ id ∈ ids) : (ids.filter (· ≠ id)).length + removed.toNat = ids.length := by
  have hfilter : ids.filter (· ≠ id) = ids.erase id := by
    rw [hnodup.erase_eq_filter]
    exact List.filter_congr fun _ _ => decide_not
  rw [hfilter]
  cases removed with
  | true =>
    have hmem := hremoved.1 rfl
    have hpos := List.length_pos_of_mem hmem
    rw [List.length_erase_of_mem hmem]
    show ids.length - 1 + 1 = ids.length
    omega
  | false =>
    rw [List.erase_of_not_mem fun hmem => Bool.false_ne_true (hremoved.2 hmem)]
    rfl

theorem unsubscribe (h : Reflects log r) (size : Nat) {id : Nat} {removed : Bool}
    (hremoved : removed = true ↔ id ∈ r.active) :
    Reflects (log ++ [⟨size, .unsubscribed id removed⟩]) ⟨r.issued, r.active.filter (· ≠ id)⟩ := by
  have hsubscriptions := subscriptions_concat log ⟨size, .unsubscribed id removed⟩
  have hremovals := removals_concat log ⟨size, .unsubscribed id removed⟩
  refine ⟨h.issued.trans hsubscriptions.symm, ?_, h.sorted.filter _, fun i hi => h.lt i (List.mem_of_mem_filter hi),
    fun i => ?_⟩
  · have hlength := length_filter_ne (h.sorted.imp Nat.ne_of_lt) hremoved
    rw [hsubscriptions, hremovals]
    show (r.active.filter (· ≠ id)).length + (removals log + removed.toNat) = subscriptions log + 0
    have := h.size
    omega
  · rw [registered_concat, List.mem_filter, h.mem_iff, decide_eq_true_eq]
    constructor
    · rintro ⟨hregistered, hne⟩
      exact Or.inr ⟨hregistered, fun _ heq => hne (Occurrence.unsubscribed.inj heq).1.symm⟩
    · rintro (heq | ⟨hregistered, hne⟩)
      · cases heq
      · exact ⟨hregistered, fun heq => hne removed (heq ▸ rfl)⟩

theorem step (h : Reflects log r) (he : r.Admits e rest) : Reflects (log ++ [e]) (r.after e.what) := by
  obtain ⟨size, what⟩ := e
  cases what with
  | subscribed id =>
    obtain rfl : id = r.issued := he.2
    exact h.subscribe size
  | unsubscribed id removed => exact h.unsubscribe size he.2
  | began event => exact h.quiet (fun _ => nofun) fun _ _ => nofun
  | invoked id event heard => exact h.quiet (fun _ => nofun) fun _ _ => nofun
  | ended => exact h.quiet (fun _ => nofun) fun _ _ => nofun

/-- The entry between two parts of a trace. -/
theorem admits {r' : Registry} (h : Reflects log r) {entries before after : List Entry}
    (htraces : Registry.Traces r entries r') (hsplit : entries = before ++ e :: after) :
    ∃ r₁, Reflects (log ++ before) r₁ ∧ r₁.Admits e after := by
  induction htraces generalizing log before with
  | nil => simp at hsplit
  | @cons r r' first rest hadmits _ ih =>
    cases before with
    | nil =>
      obtain ⟨rfl, rfl⟩ := List.cons.inj hsplit
      exact ⟨r, by rwa [List.append_nil], hadmits⟩
    | cons first' before =>
      obtain ⟨rfl, hrest⟩ := List.cons.inj hsplit
      obtain ⟨r₁, hreflects, he⟩ := ih (h.step hadmits) hrest
      exact ⟨r₁, by rwa [List.append_assoc] at hreflects, he⟩

theorem traces {r' : Registry} (h : Reflects log r) {entries : List Entry} (htraces : Registry.Traces r entries r') :
    Reflects (log ++ entries) r' := by
  induction htraces generalizing log with
  | nil => rwa [List.append_nil]
  | @cons r r' first rest hadmits _ ih =>
    have hlater := ih (h.step hadmits)
    rwa [List.append_assoc] at hlater

end Reflects

/-! ## The laws -/

/-- What holds of everything that happens at a bus, in whatever nesting. -/
structure Lawful (log : List Entry) : Prop where
  /-- At every moment there are as many observers as subscriptions less removals. -/
  size : ∀ before e after, log = before ++ e :: after → e.size + removals before = subscriptions before
  /-- A subscription gets the number of those before it as its id. -/
  subscribe : ∀ before size id after, log = before ++ ⟨size, .subscribed id⟩ :: after → id = subscriptions before
  /-- So no id is issued twice. -/
  unique : ∀ before size id after, log = before ++ ⟨size, .subscribed id⟩ :: after →
    ∀ e ∈ before ++ after, e.what ≠ .subscribed id
  /-- Only the first attempt to unsubscribe an id that was issued removes an observer. -/
  unsubscribe : ∀ before size id removed after, log = before ++ ⟨size, .unsubscribed id removed⟩ :: after →
    (removed = true ↔ Registered before id)
  /-- An emission tells those who are registered when it begins, each once, in the order of their ids. -/
  emit : ∀ before size event after, log = before ++ ⟨size, .began event⟩ :: after →
    ∃ ids : List Nat, ids.Pairwise (· < ·) ∧ (∀ id, id ∈ ids ↔ Registered before id) ∧
      invocations 0 after = ids.map (·, event)
  /-- Once an observer is removed, no emission that begins later tells it. -/
  silent : ∀ before size id between size' event after,
    log = before ++ ⟨size, .unsubscribed id true⟩ :: between ++ ⟨size', .began event⟩ :: after →
    ∀ event', (id, event') ∉ invocations 0 after

/-- Without another subscription an id that was unsubscribed stays so. -/
theorem not_registered_of_unsubscribed {before between : List Entry} {size id : Nat} {removed : Bool}
    (hnone : ∀ e ∈ between, e.what ≠ .subscribed id) :
    ¬ Registered (before ++ ⟨size, .unsubscribed id removed⟩ :: between) id := by
  induction between using List.reverseRecOn with
  | nil =>
    rw [registered_concat]
    rintro (h | h)
    · cases h
    · exact h.2 removed rfl
  | append_singleton between e ih =>
    rw [← List.cons_append, ← List.append_assoc, registered_concat]
    rintro (h | h)
    · exact hnone e (List.mem_append_right _ (List.mem_singleton_self e)) h
    · exact ih (fun e' he' => hnone e' (List.mem_append_left _ he')) h.1

namespace Registry.Traces

variable {log before after : List Entry} {r : Registry} (h : Registry.Traces ⟨0, []⟩ log r)
include h

theorem subscribed_eq {size id : Nat} (hsplit : log = before ++ ⟨size, .subscribed id⟩ :: after) :
    id = subscriptions before := by
  obtain ⟨r₁, hreflects, he⟩ := Reflects.nil.admits h hsplit
  exact he.2.trans hreflects.issued

theorem subscribed_lt {size id size' id' : Nat} {between : List Entry}
    (hsplit : log = before ++ ⟨size, .subscribed id⟩ :: (between ++ ⟨size', .subscribed id'⟩ :: after)) : id < id' := by
  have hfirst := h.subscribed_eq hsplit
  rw [← List.cons_append, ← List.append_assoc] at hsplit
  have hsecond := h.subscribed_eq hsplit
  have hmore : subscriptions (⟨size, .subscribed id⟩ :: between) = subscriptions between + 1 :=
    List.countP_cons_of_pos rfl
  rw [subscriptions_append, hmore] at hsecond
  omega

theorem subscribed_unique {size id : Nat} (hsplit : log = before ++ ⟨size, .subscribed id⟩ :: after) :
    ∀ e ∈ before ++ after, e.what ≠ .subscribed id := by
  rintro ⟨size', what⟩ he rfl
  rcases List.mem_append.1 he with hbefore | hafter
  · obtain ⟨front, back, rfl⟩ := List.append_of_mem hbefore
    rw [List.append_assoc] at hsplit
    exact Nat.lt_irrefl _ (h.subscribed_lt hsplit)
  · obtain ⟨front, back, rfl⟩ := List.append_of_mem hafter
    exact Nat.lt_irrefl _ (h.subscribed_lt hsplit)

theorem unsubscribed_iff {size id : Nat} {removed : Bool}
    (hsplit : log = before ++ ⟨size, .unsubscribed id removed⟩ :: after) : removed = true ↔ Registered before id := by
  obtain ⟨r₁, hreflects, he⟩ := Reflects.nil.admits h hsplit
  exact Iff.trans he.2 (hreflects.mem_iff id)

theorem exists_told {size : Nat} {event : Event} (hsplit : log = before ++ ⟨size, .began event⟩ :: after) :
    ∃ ids : List Nat, ids.Pairwise (· < ·) ∧ (∀ id, id ∈ ids ↔ Registered before id) ∧
      invocations 0 after = ids.map (·, event) := by
  obtain ⟨r₁, hreflects, he⟩ := Reflects.nil.admits h hsplit
  have htold := he.2 []
  rw [List.append_nil] at htold
  exact ⟨r₁.active, hreflects.sorted, hreflects.mem_iff, htold⟩

theorem not_told {size id size' : Nat} {between : List Entry} {event : Event}
    (hsplit : log = before ++ ⟨size, .unsubscribed id true⟩ :: between ++ ⟨size', .began event⟩ :: after)
    (event' : Event) : (id, event') ∉ invocations 0 after := by
  obtain ⟨ids, -, hregistered, htold⟩ := h.exists_told hsplit
  rw [List.append_assoc] at hsplit
  obtain ⟨front, size₀, back, rfl, -⟩ := (h.unsubscribed_iff hsplit).1 rfl
  rw [List.append_assoc] at hsplit
  have hnone : ∀ e ∈ between, e.what ≠ .subscribed id := by
    intro e he
    exact h.subscribed_unique hsplit e (by simp [he])
  intro hmem
  rw [htold] at hmem
  obtain ⟨other, hother, heq⟩ := List.mem_map.1 hmem
  obtain rfl : other = id := congrArg Prod.fst heq
  exact not_registered_of_unsubscribed hnone ((hregistered other).1 hother)

theorem lawful : Lawful log where
  size before e after hsplit := by
    obtain ⟨r₁, hreflects, he⟩ := Reflects.nil.admits h hsplit
    rw [he.1]
    exact hreflects.size
  subscribe _ _ _ _ := h.subscribed_eq
  unique _ _ _ _ := h.subscribed_unique
  unsubscribe _ _ _ _ _ := h.unsubscribed_iff
  emit _ _ _ _ := h.exists_told
  silent _ _ _ _ _ _ _ := h.not_told

end Registry.Traces

namespace Coder

/-- **Emissions reach those who are registered**: in every session, whatever observers subscribe, unsubscribe and emit
while an event is delivered to them, and however deep emissions nest. The scripts of observers are any lists, so they
stand for all that observers can do in a session that ends.

* What the coder carries out is a run in which every emission is told to the end.
* In each run, an emission tells exactly the observers registered when it begins, each once, in the order of
  subscription; an id is issued once, unsubscribing it removes an observer the first time only, and no emission that
  begins later tells it; at each moment and at the end there are as many observers as subscriptions less removals.
* What the journal got is what was heard. -/
theorem emissions_after (code : Code) (thresholds : Thresholds Float) (acts : List Act) :
    let start := fresh code thresholds
    (∃ log, Session start acts log (start.after acts)) ∧
    ∀ log c, Session start acts log c →
      Lawful log ∧ c.bus.size + removals log = subscriptions log ∧ c.journal.deliveries = heardIn log := by
  refine ⟨exists_session EventBus.sound_empty acts, fun log c hsession => ?_⟩
  have htraces : Registry.Traces ⟨0, []⟩ log c.bus.registry := hsession.traces
  exact ⟨htraces.lawful, (Reflects.nil.traces htraces).size, hsession.keeps.deliveries_eq⟩

/-- Observer 0 subscribes another, unsubscribes observer 1 and emits again. The emission within is for 0, 2 and 3, and
the one around it goes on to 1, which was subscribed when it began, and not to 3. -/
example :
    let outer := Event.repair ⟨[0], 1⟩
    let inner := Event.repair ⟨[1], 1⟩
    let acts : List Act := [
      .subscribe (.mk .everything [[.subscribe (.mk .everything []), .unsubscribe 1, .call (.announce inner)]]),
      .subscribe (.mk .everything []), .subscribe (.mk .everything []), .call (.announce outer)]
    ((fresh (.ofValid ⟨1, 1⟩ (by decide)) .standard).after acts).journal.deliveries =
      [(0, outer), (0, inner), (2, inner), (3, inner), (1, outer), (2, outer)] := by
  decide +kernel

end Coder

end ShardCoding
