import ShardCoding.Coder.Basic
import ShardCoding.Proofs.Code.Effects

/-!
# What carrying out effects keeps

While effects are carried out, observers hear of them and may subscribe others, leave, and call back into the coder.
Apart from such calls an observer changes the subscriptions and the journal only.

* `EventBus.pendingCalls_spend` : hearing an event spends the calls of the script entry that it takes, so the calls still
  to be made bound how deep calls nest;
* `Coder.NoCallback` : no observer calls back; `Coder.noCallback_of_pendingCalls` : none can when no script has a call;
* `Coder.IgnoresObservers` : a property of the other fields; `Coder.performWith_keeps` : it goes on to hold if each
  effect and each call of an observer keeps it; `Coder.perform_keeps` : without calls, if each effect does;
* `Coder.perform_of_silent`, `Coder.exists_perform_append_silent` : effects that announce nothing, alone or after others.
-/

namespace ShardCoding

/-! ## The calls that scripts still make -/

theorem callsOfReactions_eq_zero_iff (reactions : List Reaction) :
    callsOfReactions reactions = 0 ↔ ∀ r ∈ reactions, r.calls = 0 := by
  induction reactions with
  | nil => simp [callsOfReactions]
  | cons r reactions ih => simp [callsOfReactions, ih]

theorem Observer.calls_afterEvent (o : Observer) : o.afterEvent.calls + callsOfReactions o.reactions = o.calls := by
  obtain ⟨interest, script⟩ := o
  cases script with
  | nil => rfl
  | cons reactions script => exact Nat.add_comm ..

namespace EventBus

theorem pendingCalls_subscribe (b : EventBus) (o : Observer) :
    (b.subscribe o).pendingCalls = b.pendingCalls + o.calls := by
  unfold pendingCalls subscribe
  dsimp only
  induction b.issued with
  | nil => exact (Nat.zero_add _).symm
  | cons o' issued ih =>
    rw [List.cons_append, List.foldr_cons, List.foldr_cons, ih, Nat.add_assoc]

/-- An event takes the calls of one script entry from those that are still to be made. -/
theorem pendingCalls_spend {b : EventBus} {id : Nat} {o : Observer} (h : b.issued[id]? = some o) :
    (b.spend id).pendingCalls + callsOfReactions o.reactions = b.pendingCalls := by
  unfold pendingCalls spend
  dsimp only
  generalize b.issued = issued at h ⊢
  induction issued generalizing id with
  | nil => cases h
  | cons o' issued ih =>
    cases id with
    | zero =>
      obtain rfl := Option.some.inj h
      rw [List.modify_zero_cons, List.foldr_cons, List.foldr_cons, ← o'.calls_afterEvent]
      omega
    | succ id =>
      rw [List.modify_succ_cons, List.foldr_cons, List.foldr_cons, ← ih h, Nat.add_assoc]

end EventBus

namespace Coder

/-! ## Calls back -/

/-- No observer calls back into `c` while `effects` are carried out: how such a call would be carried out makes no
difference. -/
def NoCallback (c : Coder) (effects : List Effect) : Prop :=
  ∀ perform, c.performWith perform effects = c.performWith (fun _ c => c) effects

variable {c : Coder} {perform : List Effect → Coder → Coder}

/-- Two folds agree if their steps do wherever an invariant holds. -/
theorem foldl_agrees {α : Type} {f g : Coder → α → Coder} {P : Coder → Prop} {l : List α}
    (hstep : ∀ c, P c → ∀ a ∈ l, f c a = g c a ∧ P (g c a)) (hc : P c) :
    l.foldl f c = l.foldl g c ∧ P (l.foldl g c) := by
  induction l generalizing c with
  | nil => exact ⟨rfl, hc⟩
  | cons a l ih =>
    obtain ⟨heq, hnext⟩ := hstep c hc a List.mem_cons_self
    rw [List.foldl_cons, List.foldl_cons, heq]
    exact ih (fun c hc a ha => hstep c hc a (List.mem_cons_of_mem _ ha)) hnext

theorem react_of_calls_eq_zero (hc : c.bus.pendingCalls = 0) (id : Nat) {r : Reaction} (hr : r.calls = 0) :
    react perform id c r = react (fun _ c => c) id c r ∧ (react (fun _ c => c) id c r).bus.pendingCalls = 0 := by
  cases r with
  | subscribe o =>
    refine ⟨rfl, ?_⟩
    show (c.bus.subscribe o).pendingCalls = 0
    rw [EventBus.pendingCalls_subscribe, hc]
    exact (Nat.zero_add _).trans hr
  | unsubscribe other => exact ⟨rfl, hc⟩
  | leave => exact ⟨rfl, hc⟩
  | call call => exact absurd hr Nat.one_ne_zero

theorem deliver_of_pendingCalls (hc : c.bus.pendingCalls = 0) (event : Event) (id : Nat) :
    deliver perform event c id = deliver (fun _ c => c) event c id ∧
      (deliver (fun _ c => c) event c id).bus.pendingCalls = 0 := by
  unfold deliver
  cases hid : c.bus.issued[id]? with
  | none => exact ⟨rfl, hc⟩
  | some o =>
    dsimp only
    by_cases hhears : o.interest.hears event
    · rw [if_pos hhears, if_pos hhears]
      obtain ⟨hspent, hreactions⟩ := Nat.add_eq_zero_iff.1 ((EventBus.pendingCalls_spend hid).trans hc)
      refine foldl_agrees (P := fun c => c.bus.pendingCalls = 0) (fun c hc r hr => ?_) hspent
      exact react_of_calls_eq_zero hc id ((callsOfReactions_eq_zero_iff _).1 hreactions r hr)
    · rw [if_neg hhears, if_neg hhears]
      exact ⟨rfl, hc⟩

theorem pendingCalls_settle (hc : c.bus.pendingCalls = 0) (effect : Effect) :
    (c.settle effect).bus.pendingCalls = 0 := by
  cases effect <;> exact hc

theorem noCallback_of_pendingCalls (hc : c.bus.pendingCalls = 0) (effects : List Effect) : c.NoCallback effects := by
  intro perform
  refine (foldl_agrees (P := fun c => c.bus.pendingCalls = 0) (fun c hc effect _ => ?_) hc).1
  cases effect with
  | announce event =>
    exact foldl_agrees (P := fun c => c.bus.pendingCalls = 0) (fun c hc id _ => deliver_of_pendingCalls hc event id) hc
  | _ => exact ⟨rfl, pendingCalls_settle hc _⟩

/-! ## What effects keep -/

/-- `P` holds whatever the subscriptions and the journal. -/
def IgnoresObservers (P : Coder → Prop) : Prop := ∀ c bus journal, P c → P { c with bus := bus, journal := journal }

variable {P : Coder → Prop}

theorem react_keeps (hobservers : IgnoresObservers P) (hcalls : ∀ effects c, P c → P (perform effects c)) (hc : P c)
    (id : Nat) (r : Reaction) : P (react perform id c r) := by
  cases r with
  | subscribe o => exact hobservers c _ c.journal hc
  | unsubscribe other => exact hobservers c _ c.journal hc
  | leave => exact hobservers c _ c.journal hc
  | call call => exact hcalls _ c hc

theorem deliver_keeps (hobservers : IgnoresObservers P) (hcalls : ∀ effects c, P c → P (perform effects c))
    (event : Event) (hc : P c) (id : Nat) : P (deliver perform event c id) := by
  unfold deliver
  split
  · exact hc
  · split
    · refine List.foldlRecOn _ _ (hobservers c _ _ hc) fun c hc r _ => ?_
      exact react_keeps hobservers hcalls hc id r
    · exact hc

theorem performWith_keeps (hobservers : IgnoresObservers P) (hcalls : ∀ effects c, P c → P (perform effects c))
    {effects : List Effect} (hsettle : ∀ effect ∈ effects, ∀ c, P c → P (c.settle effect)) (hc : P c) :
    P (c.performWith perform effects) := by
  refine List.foldlRecOn _ _ hc fun c hc effect heffect => ?_
  cases effect with
  | announce event =>
    exact List.foldlRecOn _ _ hc fun c hc id _ => deliver_keeps hobservers hcalls event hc id
  | _ => exact hsettle _ heffect c hc

theorem perform_of_noCallback {effects : List Effect} (h : c.NoCallback effects) :
    c.perform effects = c.performWith (fun _ c => c) effects := by
  unfold perform
  cases c.bus.pendingCalls with
  | zero => rfl
  | succ depth => exact h (performNested depth)

theorem perform_keeps (hobservers : IgnoresObservers P) {effects : List Effect}
    (hsettle : ∀ effect ∈ effects, ∀ c, P c → P (c.settle effect)) (hcallback : c.NoCallback effects)
    (hc : P c) : P (c.perform effects) := by
  rw [perform_of_noCallback hcallback]
  exact performWith_keeps hobservers (fun _ _ h => h) hsettle hc

/-! ## Effects that announce nothing -/

theorem performWith_of_silent (perform : List Effect → Coder → Coder) {effects : List Effect}
    (h : eventsOf effects = []) (c : Coder) : c.performWith perform effects = effects.foldl settle c := by
  refine (foldl_agrees (P := fun _ => True) (fun c _ effect heffect => ⟨?_, trivial⟩) trivial).1
  have hnone := List.filterMap_eq_nil_iff.1 h effect heffect
  cases effect with
  | announce event => cases hnone
  | _ => rfl

/-- What comes last without an announcement is carried out one effect after another, whatever the observers did by
then. -/
theorem exists_perform_append_silent (front back : List Effect) (h : eventsOf back = []) (c : Coder) :
    ∃ c', c.perform (front ++ back) = back.foldl settle c' := by
  have hwith (perform : List Effect → Coder → Coder) :
      c.performWith perform (front ++ back) = back.foldl settle (c.performWith perform front) := by
    rw [← performWith_of_silent perform h]
    exact List.foldl_append
  unfold perform
  cases c.bus.pendingCalls with
  | zero => exact ⟨_, hwith _⟩
  | succ depth => exact ⟨_, hwith _⟩

theorem perform_of_silent {effects : List Effect} (h : eventsOf effects = []) (c : Coder) :
    c.perform effects = effects.foldl settle c := by
  unfold perform
  cases c.bus.pendingCalls with
  | zero => exact performWith_of_silent _ h c
  | succ depth => exact performWith_of_silent _ h c

/-- Without effects nothing happens, whatever the observers would do. -/
@[simp] theorem perform_nil (c : Coder) : c.perform [] = c := perform_of_silent rfl c

end Coder

end ShardCoding
