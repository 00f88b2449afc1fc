import Mathlib.Data.List.Nodup
import ShardCoding.Proofs.Code.Effects
import ShardCoding.Proofs.Coder.Session

/-!
# What an observer hears

* `EventBus.Sound` : every active id was issued and is active once; `EventBus.Evolves` : what any use of the bus keeps, as
  that an id which is no longer active never is again;
* `Coder.told` : the events delivered to one observer; `Coder.Hears` : a coder after some events were delivered to it,
  with others in between that calls of observers brought;
* `Coder.hears_performWith`, `Coder.hears_perform` : an observer hears the events that are announced as long as it is
  subscribed, in order, and nothing else unless an observer calls back.
-/

namespace ShardCoding

theorem Observer.interest_afterEvent (o : Observer) : o.afterEvent.interest = o.interest := by
  obtain ⟨interest, script⟩ := o
  rfl

/-! ## The bus -/

namespace EventBus

structure Sound (b : EventBus) : Prop where
  nodup : b.active.Nodup
  issued : ∀ id ∈ b.active, id < b.issued.length

/-- The observer with this id has this interest. -/
def Issued (b : EventBus) (id : Nat) (interest : Interest) : Prop :=
  ∃ o, b.issued[id]? = some o ∧ o.interest = interest

theorem Sound.exists_issued {b : EventBus} (h : b.Sound) {id : Nat} (hid : id ∈ b.active) :
    ∃ o, b.issued[id]? = some o := ⟨_, List.getElem?_eq_getElem (h.issued id hid)⟩

/-- `b'` is `b` after any use. -/
structure Evolves (b b' : EventBus) : Prop where
  sound : b.Sound → b'.Sound
  issued : ∀ id interest, b.Issued id interest → b'.Issued id interest
  gone : ∀ id interest, b.Issued id interest → id ∉ b.active → id ∉ b'.active

theorem Evolves.refl (b : EventBus) : b.Evolves b := ⟨id, fun _ _ => id, fun _ _ _ => id⟩

theorem Evolves.trans {b b' b'' : EventBus} (h : b.Evolves b') (h' : b'.Evolves b'') : b.Evolves b'' :=
  ⟨fun hs => h'.sound (h.sound hs), fun id i hi => h'.issued id i (h.issued id i hi),
    fun id i hi hid => h'.gone id i (h.issued id i hi) (h.gone id i hi hid)⟩

theorem sound_empty : ({} : EventBus).Sound := ⟨List.nodup_nil, fun _ h => absurd h List.not_mem_nil⟩

theorem evolves_subscribe (b : EventBus) (o : Observer) : b.Evolves (b.subscribe o) where
  sound h := by
    refine ⟨List.nodup_append.2 ⟨h.nodup, List.nodup_singleton _, fun i hi j hj => ?_⟩, fun id hid => ?_⟩
    · rw [List.mem_singleton.1 hj]
      exact Nat.ne_of_lt (h.issued i hi)
    · rw [subscribe, List.length_append, List.length_singleton]
      rcases List.mem_append.1 hid with hold | hnew
      · exact Nat.lt_succ_of_lt (h.issued id hold)
      · rw [List.mem_singleton.1 hnew]
        exact Nat.lt_succ_self _
  issued := by
    rintro id interest ⟨o', ho', hinterest⟩
    obtain ⟨hlt, -⟩ := List.getElem?_eq_some_iff.1 ho'
    exact ⟨o', (List.getElem?_append_left hlt).trans ho', hinterest⟩
  gone := by
    rintro id interest ⟨o', ho', -⟩ hid hmem
    obtain ⟨hlt, -⟩ := List.getElem?_eq_some_iff.1 ho'
    rcases List.mem_append.1 hmem with hold | hnew
    · exact hid hold
    · rw [List.mem_singleton.1 hnew] at hlt
      exact Nat.lt_irrefl _ hlt

theorem evolves_unsubscribe (b : EventBus) (id : Nat) : b.Evolves (b.unsubscribe id) where
  sound h := ⟨h.nodup.filter _, fun i hi => h.issued i (List.mem_of_mem_filter hi)⟩
  issued _ _ h := h
  gone _ _ _ hid hmem := hid (List.mem_of_mem_filter hmem)

theorem evolves_spend (b : EventBus) (id : Nat) : b.Evolves (b.spend id) where
  sound h := ⟨h.nodup, fun i hi => by rw [spend, List.length_modify]; exact h.issued i hi⟩
  issued := by
    rintro i interest ⟨o, ho, hinterest⟩
    by_cases hi : id = i
    · refine ⟨o.afterEvent, ?_, o.interest_afterEvent.trans hinterest⟩
      rw [spend, List.getElem?_modify, ho]
      exact congrArg some (if_pos hi)
    · refine ⟨o, ?_, hinterest⟩
      rw [spend, List.getElem?_modify, ho]
      exact congrArg some (if_neg hi)
  gone _ _ _ hid := hid

end EventBus

namespace Coder

/-! ## What is delivered to one observer -/

/-- The events delivered to the observer with this id. -/
def told (c : Coder) (id : Nat) : List Event :=
  c.journal.deliveries.filterMap fun (other, event) => if other = id then some event else none

/-- `c'` is `c` after `own` events were delivered to observer `id`, and none besides if `silent`. -/
structure Hears (id : Nat) (silent : Prop) (own : List Event) (c c' : Coder) : Prop where
  bus : c.bus.Evolves c'.bus
  told : ∃ new, c'.told id = c.told id ++ new ∧ own.Sublist new ∧ (silent → new = own)

variable {id : Nat} {silent : Prop} {c c' c'' : Coder} {own own' : List Event}

theorem Hears.of_eq (hbus : c.bus.Evolves c'.bus) (htold : c'.told id = c.told id) : Hears id silent [] c c' :=
  ⟨hbus, [], by rw [htold, List.append_nil], .slnil, fun _ => rfl⟩

theorem Hears.refl (c : Coder) : Hears id silent [] c c := .of_eq (.refl c.bus) rfl

theorem Hears.trans (h : Hears id silent own c c') (h' : Hears id silent own' c' c'') :
    Hears id silent (own ++ own') c c'' := by
  obtain ⟨new, htold, hsub, hnew⟩ := h.told
  obtain ⟨new', htold', hsub', hnew'⟩ := h'.told
  refine ⟨h.bus.trans h'.bus, new ++ new', ?_, hsub.append hsub', fun hs => by rw [hnew hs, hnew' hs]⟩
  rw [htold', htold, List.append_assoc]

theorem Hears.weaken (h : Hears id silent own c c') : Hears id False [] c c' := by
  obtain ⟨new, htold, -⟩ := h.told
  exact ⟨h.bus, new, htold, List.nil_sublist new, False.elim⟩

theorem Hears.foldl {α : Type} {step : Coder → α → Coder} (hstep : ∀ c a, Hears id silent [] c (step c a)) (l : List α)
    (c : Coder) : Hears id silent [] c (l.foldl step c) := by
  induction l generalizing c with
  | nil => exact .refl c
  | cons a l ih => exact (hstep c a).trans (ih (step c a))

theorem hears_settle (c : Coder) (effect : Effect) : Hears id silent [] c (c.settle effect) := by
  cases effect <;> exact .of_eq (.refl _) rfl

/-- The event if it is delivered to observer `id` by telling observer `other` of it. -/
def ownEvents (id : Nat) (event : Event) (c : Coder) (other : Nat) : List Event :=
  match c.bus.issued[other]? with
  | none => []
  | some o => if other = id ∧ o.interest.hears event then [event] else []

theorem ownEvents_self {interest : Interest} (h : c.bus.Issued id interest) (event : Event) :
    ownEvents id event c id = [event].filter interest.hears := by
  obtain ⟨o, ho, rfl⟩ := h
  rw [ownEvents, ho]
  by_cases hhears : o.interest.hears event <;> simp [hhears]

theorem ownEvents_other {other : Nat} (h : other ≠ id) (event : Event) (c : Coder) :
    ownEvents id event c other = [] := by
  unfold ownEvents
  split
  · rfl
  · exact if_neg fun hself => h hself.1

theorem told_noted (c : Coder) (other : Nat) (event : Event) :
    (c.noted other event).told id = c.told id ++ if other = id then [event] else [] := by
  unfold told noted
  rw [List.filterMap_append]
  by_cases h : other = id <;> simp [h]

section

variable {perform : List Effect → Coder → Coder} (hperform : ∀ effects c, Hears id silent [] c (perform effects c))
include hperform

theorem hears_react (other : Nat) (c : Coder) (r : Reaction) : Hears id silent [] c (react perform other c r) := by
  cases r with
  | subscribe o => exact .of_eq (c.bus.evolves_subscribe o) rfl
  | unsubscribe i => exact .of_eq (c.bus.evolves_unsubscribe i) rfl
  | leave => exact .of_eq (c.bus.evolves_unsubscribe other) rfl
  | call call => exact hperform _ c

theorem hears_deliver (event : Event) (c : Coder) (other : Nat) :
    Hears id silent (ownEvents id event c other) c (deliver perform event c other) := by
  unfold deliver ownEvents
  cases hother : c.bus.issued[other]? with
  | none => exact .refl c
  | some o =>
    dsimp only
    by_cases hhears : o.interest.hears event
    · have hnoted : Hears id silent (if other = id ∧ o.interest.hears event then [event] else []) c
          (c.noted other event) := by
        refine ⟨c.bus.evolves_spend other, _, told_noted c other event, ?_, fun _ => ?_⟩ <;> simp [hhears]
      have hreactions := Hears.foldl (hears_react hperform other) o.reactions (c.noted other event)
      have hall := hnoted.trans hreactions
      rw [List.append_nil] at hall
      rw [if_pos hhears]
      exact hall
    · rw [if_neg hhears, if_neg fun h => hhears h.2]
      exact .refl c

/-- One announcement reaches an observer once if it is among those who are told. -/
theorem hears_announcement {interest : Interest} (event : Event) {ids : List Nat} (hnodup : ids.Nodup)
    (hissued : c.bus.Issued id interest) :
    Hears id silent (if id ∈ ids then [event].filter interest.hears else []) c (ids.foldl (deliver perform event) c) := by
  induction ids generalizing c with
  | nil => exact .refl c
  | cons other ids ih =>
    obtain ⟨hnot, hrest⟩ := List.nodup_cons.1 hnodup
    have hfirst := hears_deliver hperform event c other
    have hlater := ih hrest (hfirst.bus.issued id interest hissued)
    have hall := hfirst.trans hlater
    by_cases hself : other = id
    · subst hself
      rw [ownEvents_self hissued, if_neg hnot, List.append_nil] at hall
      rw [if_pos List.mem_cons_self]
      exact hall
    · rw [ownEvents_other hself, List.nil_append] at hall
      have hmem : id ∈ other :: ids ↔ id ∈ ids := by
        rw [List.mem_cons]
        exact or_iff_right fun h => hself h.symm
      simp only [hmem]
      exact hall

theorem hears_carryOut {interest : Interest} (effect : Effect) (hsound : c.bus.Sound)
    (hissued : c.bus.Issued id interest) :
    Hears id silent (if id ∈ c.bus.active then (eventsOf [effect]).filter interest.hears else []) c
        (carryOut perform c effect) ∧
      (eventsOf [effect] = [] → (carryOut perform c effect).bus = c.bus) := by
  have hsettle : Hears id silent (if id ∈ c.bus.active then [] else []) c (c.settle effect) := by
    rw [ite_self]
    exact hears_settle c effect
  cases effect with
  | announce event => exact ⟨hears_announcement hperform event hsound.nodup hissued, fun h => nomatch h⟩
  | _ => exact ⟨hsettle, fun _ => rfl⟩

/-- Of the events that are announced an observer hears those until it is no longer subscribed. -/
theorem hears_performWith {interest : Interest} (effects : List Effect) (hsound : c.bus.Sound)
    (hissued : c.bus.Issued id interest) :
    ∃ heard, heard <+: eventsOf effects ∧
      Hears id silent (heard.filter interest.hears) c (performWith perform effects c) ∧
      (id ∈ c.bus.active → eventsOf effects ≠ [] → heard ≠ []) ∧ (id ∉ c.bus.active → heard = []) ∧
      (id ∈ (performWith perform effects c).bus.active → heard = eventsOf effects) := by
  rw [performWith_eq]
  induction effects generalizing c with
  | nil => exact ⟨[], List.nil_prefix, .refl c, fun _ h => absurd rfl h, fun _ => rfl, fun _ => rfl⟩
  | cons effect effects ih =>
    obtain ⟨hfirst, hsilent⟩ := hears_carryOut hperform effect hsound hissued
    obtain ⟨heard, hfront, hlater, hsome, hnone, hwhole⟩ :=
      ih (hfirst.bus.sound hsound) (hfirst.bus.issued id interest hissued)
    have hall := hfirst.trans hlater
    rw [List.foldl_cons, show effect :: effects = [effect] ++ effects from rfl, eventsOf_append]
    by_cases hid : id ∈ c.bus.active
    · rw [if_pos hid, ← List.filter_append] at hall
      refine ⟨eventsOf [effect] ++ heard, (List.prefix_append_right_inj _).2 hfront, hall, fun _ hne hnil => ?_,
        fun hnot => absurd hid hnot, fun hend => by rw [hwhole hend]⟩
      obtain ⟨hquiet, rfl⟩ := List.append_eq_nil_iff.1 hnil
      rw [hquiet, List.nil_append] at hne
      exact hsome (by rw [hsilent hquiet]; exact hid) hne rfl
    · -- an id that is no longer active never is again
      have hgone := hfirst.bus.gone id interest hissued hid
      have hgone' := hlater.bus.gone id interest (hfirst.bus.issued id interest hissued) hgone
      obtain rfl := hnone hgone
      rw [if_neg hid] at hall
      exact ⟨[], List.nil_prefix, hall, fun h => absurd h hid, fun _ => rfl, fun h => absurd h hgone'⟩

end

/-- However deep calls nest, what was delivered stays delivered. -/
theorem hears_performNested (id depth : Nat) (effects : List Effect) (c : Coder) :
    Hears id False [] c (performNested depth effects c) := by
  have hwith : ∀ perform, (∀ effects c, Hears id False [] c (perform effects c)) → ∀ effects c,
      Hears id False [] c (performWith perform effects c) := by
    intro perform hperform effects c
    refine Hears.foldl (fun c effect => ?_) effects c
    cases effect with
    | announce event => exact Hears.foldl (fun c other => (hears_deliver hperform event c other).weaken) c.bus.active c
    | _ => exact hears_settle c _
  induction depth generalizing effects c with
  | zero => exact hwith _ (fun _ c => .refl c) effects c
  | succ depth ih => exact hwith _ ih effects c

/-- A coder carries out effects with calls of observers one level deeper, and if there are none, with no calls at all. -/
theorem exists_perform_eq (id : Nat) (c : Coder) (effects : List Effect) : ∃ (perform : List Effect → Coder → Coder)
    (silent : Prop), (∀ effects c, Hears id silent [] c (perform effects c)) ∧
      c.perform effects = performWith perform effects c ∧ (c.callsDuring effects = [] → silent) := by
  by_cases hnone : c.callsDuring effects = []
  · exact ⟨fun _ c => c, True, fun _ c => .refl c, perform_of_noCallback (noCallback_of_callsDuring hnone),
      fun _ => trivial⟩
  · unfold perform
    cases c.bus.pendingCalls with
    | zero => exact ⟨fun _ c => c, False, fun _ c => .refl c, rfl, hnone⟩
    | succ depth => exact ⟨performNested depth, False, hears_performNested id depth, rfl, hnone⟩

/-- A subscribed observer hears the events that effects announce, in their order, as long as it is subscribed, and the
first of them in any case; other events come in between only through calls of observers. -/
theorem hears_perform {interest : Interest} (effects : List Effect) (hsound : c.bus.Sound)
    (hissued : c.bus.Issued id interest) (hid : id ∈ c.bus.active) :
    ∃ heard new, heard <+: eventsOf effects ∧ (eventsOf effects ≠ [] → heard ≠ []) ∧
      (id ∈ (c.perform effects).bus.active → heard = eventsOf effects) ∧
      (c.perform effects).told id = c.told id ++ new ∧ (heard.filter interest.hears).Sublist new ∧
      (c.callsDuring effects = [] → new = heard.filter interest.hears) := by
  obtain ⟨perform, silent, hperform, heq, hsilent⟩ := exists_perform_eq id c effects
  obtain ⟨heard, hfront, hears, hsome, -, hwhole⟩ := hears_performWith hperform effects hsound hissued
  obtain ⟨new, htold, hsub, hnew⟩ := hears.told
  rw [heq]
  exact ⟨heard, new, hfront, hsome hid, hwhole, htold, hsub, fun hnone => hnew (hsilent hnone)⟩

/-! ## Sessions -/

theorem evolves_act (c : Coder) (a : Act) : c.bus.Evolves (c.act a).bus := by
  cases a with
  | call call => exact (hears_performNested 0 _ (call.effects c.code) c).bus
  | subscribe o => exact c.bus.evolves_subscribe o
  | unsubscribe other => exact c.bus.evolves_unsubscribe other

/-- The bus is sound after any session. -/
theorem sound_after (code : Code) (thresholds : Thresholds Float) (acts : List Act) :
    ((fresh code thresholds).after acts).bus.Sound :=
  List.foldlRecOn _ _ (motive := fun c : Coder => c.bus.Sound) EventBus.sound_empty fun c hc a _ =>
    (evolves_act c a).sound hc

end Coder

end ShardCoding
