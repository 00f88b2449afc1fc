import ShardCoding.Proofs.Coder.Perform

/-!
# Calls that observers make

* `Coder.callsDuring` : the calls that observers make while effects are carried out, in the order in which they begin;
* `Coder.noCallback_of_callsDuring` : without any, no observer calls back.
-/

namespace ShardCoding

/-- What the steps of a fold put out, one after another. -/
def putOut {σ α β : Type} (step : σ → α → σ) (out : σ → α → List β) : σ → List α → List β
  | _, [] => []
  | s, a :: l => out s a ++ putOut step out (step s a) l

/-- What the steps put out for two lists in turn. -/
theorem putOut_append {σ α β : Type} (step : σ → α → σ) (out : σ → α → List β) (s : σ) (l l' : List α) :
    putOut step out s (l ++ l') = putOut step out s l ++ putOut step out (l.foldl step s) l' := by
  induction l generalizing s with
  | nil => rfl
  | cons a l ih => rw [List.cons_append, putOut, putOut, ih, List.append_assoc, List.foldl_cons]

/-- Two folds agree if their steps do wherever one of them puts nothing out. -/
theorem foldl_eq_of_putOut_eq_nil {σ α β : Type} {step step' : σ → α → σ} {out : σ → α → List β}
    (hstep : ∀ s a, out s a = [] → step' s a = step s a) {s : σ} {l : List α} (h : putOut step out s l = []) :
    l.foldl step' s = l.foldl step s := by
  induction l generalizing s with
  | nil => rfl
  | cons a l ih =>
    obtain ⟨hnone, hlater⟩ := List.append_eq_nil_iff.1 h
    rw [List.foldl_cons, List.foldl_cons, hstep s a hnone]
    exact ih hlater

namespace Coder

/-- Observer `id` has spent one entry of its script on an event. -/
def noted (c : Coder) (id : Nat) (event : Event) : Coder :=
  { c with
    bus := c.bus.spend id
    journal := { c.journal with deliveries := c.journal.deliveries ++ [(id, event)] } }

/-- One effect, calls made by observers through `perform`. -/
def carryOut (perform : List Effect → Coder → Coder) (c : Coder) : Effect → Coder
  | .announce event => c.bus.active.foldl (deliver perform event) c
  | effect => c.settle effect

section

variable (perform : List Effect → Coder → Coder) (calls : List Effect → Coder → List Call)

theorem performWith_eq (effects : List Effect) (c : Coder) :
    performWith perform effects c = effects.foldl (carryOut perform) c := rfl

/-- The call that a reaction is, and those that observers make meanwhile, by `calls`. -/
def callsOfReaction (c : Coder) : Reaction → List Call
  | .call call => call :: calls (call.effects c.code) c
  | _ => []

def callsOfDelivery (event : Event) (c : Coder) (id : Nat) : List Call :=
  match c.bus.issued[id]? with
  | none => []
  | some o =>
    if o.interest.hears event then putOut (react perform id) (callsOfReaction calls) (c.noted id event) o.reactions
    else []

def callsOfEffect (c : Coder) : Effect → List Call
  | .announce event => putOut (deliver perform event) (callsOfDelivery perform calls event) c c.bus.active
  | _ => []

def callsWith (effects : List Effect) (c : Coder) : List Call :=
  putOut (carryOut perform) (callsOfEffect perform calls) c effects

end

/-- Calls are listed when they are made, also those for whose nesting there is no depth left. -/
def callsNested : (depth : Nat) → List Effect → Coder → List Call
  | 0 => callsWith (fun _ c => c) fun _ _ => []
  | depth + 1 => callsWith (performNested depth) (callsNested depth)

/-- The calls that observers make while `effects` are carried out, and while those calls are, in the order in which they
begin. -/
def callsDuring (c : Coder) (effects : List Effect) : List Call := callsNested c.bus.pendingCalls effects c

/-! ## No calls -/

section

variable {perform : List Effect → Coder → Coder} {calls : List Effect → Coder → List Call}

theorem deliver_of_callsOfDelivery (perform' : List Effect → Coder → Coder) {event : Event} {c : Coder} {id : Nat}
    (h : callsOfDelivery perform calls event c id = []) : deliver perform' event c id = deliver perform event c id := by
  unfold callsOfDelivery at h
  unfold deliver
  cases hid : c.bus.issued[id]? with
  | none => rfl
  | some o =>
    rw [hid] at h
    dsimp only at h ⊢
    split
    · next hhears =>
      rw [if_pos hhears] at h
      refine foldl_eq_of_putOut_eq_nil (fun c r hnone => ?_) h
      cases r with
      | call call => cases hnone
      | _ => rfl
    · rfl

/-- How a call would be carried out makes no difference when none is made. -/
theorem performWith_of_callsWith (perform' : List Effect → Coder → Coder) {c : Coder} {effects : List Effect}
    (h : callsWith perform calls effects c = []) :
    performWith perform' effects c = performWith perform effects c := by
  rw [performWith_eq, performWith_eq]
  refine foldl_eq_of_putOut_eq_nil (fun c effect hnone => ?_) h
  cases effect with
  | announce event => exact foldl_eq_of_putOut_eq_nil (fun _ _ => deliver_of_callsOfDelivery perform') hnone
  | _ => rfl

end

theorem noCallback_of_callsDuring {c : Coder} {effects : List Effect} (h : c.callsDuring effects = []) :
    c.NoCallback effects := by
  intro perform
  unfold callsDuring at h
  cases hdepth : c.bus.pendingCalls with
  | zero => exact noCallback_of_pendingCalls hdepth effects perform
  | succ depth =>
    rw [hdepth, callsNested] at h
    rw [performWith_of_callsWith perform h, performWith_of_callsWith (fun _ c => c) h]

end Coder

end ShardCoding
