import TaggedScript.Evaluation

/-!
What an action does to its state whether it succeeds or fails.
-/
namespace TaggedScript

section
variable {ε σ α β : Type}

/-- The state that an action leaves. -/
def stateOf : EStateM.Result ε σ α → σ
  | .ok _ s => s
  | .error _ s => s

/-- What an action came to, without the state. -/
def outcome : EStateM.Result ε σ α → Except ε α
  | .ok a _ => .ok a
  | .error e _ => .error e

theorem ok_of_outcome {r : EStateM.Result ε σ α} {a : α} (h : outcome r = .ok a) :
    r = .ok a (stateOf r) := by
  cases r with
  | ok b s =>
    cases h
    rfl
  | error e s => cases h

theorem error_of_outcome {r : EStateM.Result ε σ α} {e : ε} (h : outcome r = .error e) :
    r = .error e (stateOf r) := by
  cases r with
  | ok b s => cases h
  | error e' s =>
    cases h
    rfl

/-- The state after an action was carried out some times, whatever it came to. -/
def afterSteps (x : EStateM ε σ α) : Nat → σ → σ
  | 0, s => s
  | n + 1, s => stateOf (x (afterSteps x n s))

theorem bind_eq (x : EStateM ε σ α) (f : α → EStateM ε σ β) (s : σ) :
    (x >>= f) s = match x s with
      | .ok a t => f a t
      | .error e t => .error e t := rfl

theorem pure_eq (a : α) (s : σ) : (pure a : EStateM ε σ α) s = .ok a s := rfl

theorem get_eq (s : σ) : (get : EStateM ε σ σ) s = .ok s s := rfl

theorem set_eq (s t : σ) : (set s : EStateM ε σ PUnit) t = .ok ⟨⟩ s := rfl

theorem modify_eq (f : σ → σ) (s : σ) : (modify f : EStateM ε σ PUnit) s = .ok ⟨⟩ (f s) := rfl

theorem modifyGet_eq (f : σ → α × σ) (s : σ) :
    (modifyGet f : EStateM ε σ α) s = .ok (f s).1 (f s).2 := rfl

/-- The two steps of a sequence that succeeded. -/
theorem ok_of_bind {x : EStateM ε σ α} {f : α → EStateM ε σ β} {s t : σ} {b : β}
    (h : (x >>= f) s = .ok b t) : ∃ a u, x s = .ok a u ∧ f a u = .ok b t := by
  rw [bind_eq] at h
  split at h
  · rename_i a u first
    exact ⟨a, u, first, h⟩
  · cases h

/-- The result of an action that only returns it. -/
theorem ok_of_pure {s t : σ} {a b : α} (h : (pure a : EStateM ε σ α) s = .ok b t) :
    a = b ∧ s = t := by
  injection h with value state
  exact ⟨value, state⟩

/-- An action changes the state only as the relation allows. -/
def Keeps (R : σ → σ → Prop) (x : EStateM ε σ α) : Prop := ∀ s, R s (stateOf (x s))

namespace Keeps
variable {R : σ → σ → Prop}

theorem bind (trans : ∀ a b c, R a b → R b c → R a c) {x : EStateM ε σ α}
    {f : α → EStateM ε σ β} (hx : Keeps R x) (hf : ∀ a, Keeps R (f a)) : Keeps R (x >>= f) := by
  intro s
  have first := hx s
  rw [bind_eq]
  split
  · rename_i a t eq
    rw [eq] at first
    exact trans _ _ _ first (hf a t)
  · rename_i e t eq
    rwa [eq] at first

theorem pure (refl : ∀ a, R a a) (a : α) : Keeps R (Pure.pure a : EStateM ε σ α) := fun s => refl s

theorem throw (refl : ∀ a, R a a) (e : ε) : Keeps R (throw e : EStateM ε σ α) := fun s => refl s

theorem get (refl : ∀ a, R a a) : Keeps R (get : EStateM ε σ σ) := fun s => refl s

end Keeps
end

/-- Calling a builtin operator applies it, however deep calls may go. -/
theorem invokeWithin_operator {w : World} {id : ObjectId} {op : Operator}
    (body : (w.object id).body = .native (.operator op)) (limit : Nat) (receiver : Value)
    (args : List Value) : invokeWithin limit id receiver args w = callOperator op args w := by
  unfold invokeWithin
  simp only [bind_eq, get_eq, body]

namespace World

/-- The functions with code are the same, and so is their code. -/
def SameCode (w v : World) : Prop := ∀ id, (v.object id).code? = (w.object id).code?

theorem SameCode.refl (w : World) : w.SameCode w := fun _ => rfl

theorem SameCode.trans {w v u : World} (h : w.SameCode v) (g : v.SameCode u) : w.SameCode u :=
  fun id => (g id).trans (h id)

theorem sameCode_of_objects {w v : World} (h : v.objects = w.objects) : w.SameCode v := by
  intro id
  simp [object, h]

theorem sameCode_addObject (w : World) (o : HostObject) (h : o.code? = none) :
    w.SameCode (w.addObject o).2 := by
  intro id
  simp only [object, addObject, Array.getD_eq_getD_getElem?, Array.getElem?_push]
  split
  · rename_i last
    rw [Array.getElem?_eq_none (by omega)]
    exact h
  · rfl

theorem sameCode_setField (w : World) (id : ObjectId) (name : String) (v : Value) :
    w.SameCode (w.setField id name v) := by
  intro other
  simp only [object, setField, Array.getD_eq_getD_getElem?, Array.getElem?_modify]
  split
  · cases w.objects[other.index]? <;> rfl
  · rfl

end World

/-- An action leaves all code as it is. -/
abbrev KeepsCode {α : Type} (x : Action α) : Prop := Keeps World.SameCode x

namespace KeepsCode
open World

variable {α β : Type}

theorem bind {x : Action α} {f : α → Action β} (hx : KeepsCode x) (hf : ∀ a, KeepsCode (f a)) :
    KeepsCode (x >>= f) :=
  Keeps.bind (R := SameCode) (fun _ _ _ => SameCode.trans) hx hf

theorem pure (a : α) : KeepsCode (Pure.pure a) := Keeps.pure SameCode.refl a

theorem throw (e : Failure) : KeepsCode (throw e : Action α) := Keeps.throw SameCode.refl e

theorem get : KeepsCode get := Keeps.get SameCode.refl

/-- A sequence of actions, the first of which may end in a `return`. -/
theorem bindEval {x : Eval α} {f : α → Eval β} (hx : KeepsCode x.run)
    (hf : ∀ a, KeepsCode (f a).run) : KeepsCode (x >>= f).run := by
  apply bind hx
  intro r
  cases r with
  | ok a => exact hf a
  | error v => exact pure _

theorem lift {x : Action α} (hx : KeepsCode x) : KeepsCode (liftM x : Eval α).run :=
  bind hx fun _ => pure _

end KeepsCode
end TaggedScript
