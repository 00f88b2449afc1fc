import ShardCoding.Proofs.Coder.Nesting

/-!
# Sessions

A session is what happens to one coder from its construction on.

* `Act` : a call, or a change of the subscriptions; `Coder.act`, `Coder.after` : one act carried out, and a session of
  them; `Coder.callbacks` : the calls that observers make in the course of a session;
* `Coder.performNested_keeps` : what every effect keeps is kept however deep calls nest; `Coder.code_after` : the code
  stays the same.
-/

namespace ShardCoding

inductive Act where
  | call (call : Call)
  | subscribe (observer : Observer)
  | unsubscribe (id : Nat)

def Act.call? : Act → Option Call
  | .call c => some c
  | _ => none

namespace Coder

/-- A coder that has counted nothing, keeps no digests and has no observers. -/
def fresh (code : Code) (thresholds : Thresholds Float) : Coder := { code, thresholds }

def act (c : Coder) : Act → Coder
  | .call call => c.call call
  | .subscribe o => { c with bus := c.bus.subscribe o }
  | .unsubscribe id => { c with bus := c.bus.unsubscribe id }

def after (c : Coder) (acts : List Act) : Coder := acts.foldl act c

/-- The calls that observers make in the course of one act. -/
def callsIn (c : Coder) : Act → List Call
  | .call call => c.callsDuring (call.effects c.code)
  | _ => []

/-- The calls that observers make in the course of a session. -/
def callbacks (c : Coder) (acts : List Act) : List Call := putOut act callsIn c acts

/-! ## What a session keeps -/

variable {P : Coder → Prop}

/-- What every effect keeps is kept however deep calls nest. -/
theorem performNested_keeps (hobservers : IgnoresObservers P) (hsettle : ∀ effect c, P c → P (c.settle effect))
    (depth : Nat) (effects : List Effect) {c : Coder} (hc : P c) : P (performNested depth effects c) := by
  induction depth generalizing effects c with
  | zero => exact performWith_keeps hobservers (fun _ _ h => h) (fun effect _ => hsettle effect) hc
  | succ depth ih => exact performWith_keeps hobservers (fun effects _ => ih effects) (fun effect _ => hsettle effect) hc

theorem code_settle (c : Coder) (effect : Effect) : (c.settle effect).code = c.code := by cases effect <;> rfl

theorem code_perform (c : Coder) (effects : List Effect) : (c.perform effects).code = c.code :=
  performNested_keeps (P := fun c' => c'.code = c.code) (fun _ _ _ h => h)
    (fun effect c' h => (code_settle c' effect).trans h) _ effects rfl

theorem code_act (c : Coder) (a : Act) : (c.act a).code = c.code := by
  cases a with
  | call call => exact code_perform c _
  | _ => rfl

theorem code_after (c : Coder) (acts : List Act) : (c.after acts).code = c.code := by
  unfold after
  induction acts generalizing c with
  | nil => rfl
  | cons a acts ih => rw [List.foldl_cons, ih, code_act]

end Coder

end ShardCoding
