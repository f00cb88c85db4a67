import TaggedScript.Proofs.Agreement.Places

/-!
An evaluation under watch and a meaning that go together. From where both sides agree they come to
the same, with some ends of the evaluation excused.
-/
namespace TaggedScript

/-- Ends of an evaluation under watch that have no counterpart: something was shown, a variable was
declared once more, or too many calls were active. -/
inductive Excused : Halt → Prop
  | exposed : Excused .exposed
  | declared (x : String) : Excused (.failed (.alreadyDefined x))
  | tooMany (f : String) : Excused (.failed (.tooManyCalls f))

/-- What both sides come to, from the world `w` on: the values are related, both sides agree at a
place, and no other scope than that of the place was changed. The evaluator has no limit for
records. -/
inductive EndsAlike {α β : Type} (program : Program) (p : Place) (R : List Value → α → β → Prop)
    (pairs : List Value) (w : World) :
    EStateM.Result Halt World α → EStateM.Result Stop Memory β → Prop
  | excused {halt : Halt} {v : World} {s : EStateM.Result Stop Memory β} : Excused halt →
      EndsAlike program p R pairs w (.error halt v) s
  | noRoom {r : EStateM.Result Halt World α} {requested available : Nat} {τ : Memory} :
      EndsAlike program p R pairs w r (.error (.noRoom requested available) τ)
  | ok {more : List Value} {a : α} {b : β} {v : World} {τ : Memory} : pairs <+: more →
      p.Here program more v τ → w.Kept p.scope v → R more a b →
      EndsAlike program p R pairs w (.ok a v) (.ok b τ)
  | returned {more : List Value} {a b : Value} {v : World} {τ : Memory} : pairs <+: more →
      Agree program p.made more v τ → w.Kept p.scope v → Same more a b →
      EndsAlike program p R pairs w (.error (.returned a) v) (.error (.returned b) τ)
  | failed {e : Failure} {v : World} {τ : Memory} : v.output = τ.world.output →
      EndsAlike program p R pairs w (.error (.failed e) v) (.error (.failed e) τ)

/-- From where both sides agree, with these pairs of objects or with more, they come to the same. -/
def Together {α β : Type} (program : Program) (p q : Place) (R : List Value → α → β → Prop)
    (pairs : List Value) (x : Watched α) (y : Meaning β) : Prop :=
  ∀ more, pairs <+: more → ∀ w σ, p.Here program more w σ →
    EndsAlike program q R more w (x w) (y σ)

section
variable {α β γ δ : Type} {program : Program} {p q r : Place}
  {R : List Value → α → β → Prop} {S : List Value → γ → δ → Prop} {pairs more : List Value}
  {w v : World}

/-- What came after an agreement is told from where it began. -/
theorem EndsAlike.after {x : EStateM.Result Halt World α} {y : EStateM.Result Stop Memory β}
    (grows : pairs <+: more) (kept : w.Kept p.scope v) (h : EndsAlike program p R more v x y) :
    EndsAlike program p R pairs w x y := by
  cases h with
  | excused known => exact .excused known
  | noRoom => exact .noRoom
  | ok grows' here kept' related =>
    exact .ok (grows.trans grows') here (kept.trans kept') related
  | returned grows' agree kept' same =>
    exact .returned (grows.trans grows') agree (kept.trans kept') same
  | failed output => exact .failed output

/-- More functions may count as made when all is done. -/
theorem EndsAlike.next {x : EStateM.Result Halt World α} {y : EStateM.Result Stop Memory β}
    (h : EndsAlike program p R pairs w x y) (n : Nat) :
    EndsAlike program (p.next n) R pairs w x y := by
  have before := Place.Before.next p n
  cases h with
  | excused known => exact .excused known
  | noRoom => exact .noRoom
  | ok grows here kept related => exact .ok grows (here.next n) (before.scope ▸ kept) related
  | returned grows agree kept same =>
    exact .returned grows (agree.mono before.made) (before.scope ▸ kept) same
  | failed output => exact .failed output

namespace Together

theorem mono {x : Watched α} {y : Meaning β} (h : Together program p q R pairs x y)
    (grows : pairs <+: more) : Together program p q R more x y :=
  fun more' grows' => h more' (grows.trans grows')

theorem pure {a : α} {b : β} (related : ∀ more, pairs <+: more → R more a b) :
    Together program p p R pairs (Pure.pure a) (Pure.pure b) :=
  fun more grows w _ here => .ok (List.prefix_refl _) here (.refl _ w) (related more grows)

theorem returned {a b : Value} (same : Same pairs a b) :
    Together program p p R pairs (throw (.returned a)) (throw (.returned b)) :=
  fun _ grows w _ here => .returned (List.prefix_refl _) here.agree (.refl _ w) (same.mono grows)

/-- Functions that are not made may count as made, before and after. -/
theorem pass {n k l : Nat} {x : Watched α} {y : Meaning β}
    (h : Together program (p.next k) (p.next l) R pairs x y) (before : n ≤ k) {m : Nat}
    (after : l ≤ m) : Together program (p.next n) (p.next m) R pairs x y := by
  intro more grows w σ here
  obtain ⟨i, rfl⟩ := Nat.exists_eq_add_of_le before
  obtain ⟨j, rfl⟩ := Nat.exists_eq_add_of_le after
  have start := here.next i
  rw [← Place.next_add] at start
  rw [Place.next_add]
  exact (h more grows w σ start).next j

/-- One thing after another. What the first leaves is in agreement with what the second begins
with. -/
theorem bind {x : Watched α} {y : Meaning β} {f : α → Watched γ} {g : β → Meaning δ}
    (h : Together program p q R pairs x y) (before : q.Before r)
    (next : ∀ more, pairs <+: more → ∀ a b, R more a b →
      Together program q r S more (f a) (g b)) :
    Together program p r S pairs (x >>= f) (y >>= g) := by
  intro more grows w σ here
  rw [bind_eq, bind_eq]
  have first := h more grows w σ here
  generalize x w = s at first
  generalize y σ = t at first
  cases first with
  | excused known => exact .excused known
  | noRoom => exact .noRoom
  | ok grows' here' kept related =>
    have second := next _ (grows.trans grows') _ _ related _ (List.prefix_refl _) _ _ here'
    exact second.after grows' (before.scope ▸ kept)
  | returned grows' agree kept same =>
    exact .returned grows' (agree.mono before.made) (before.scope ▸ kept) same
  | failed output => exact .failed output

end Together
end
end TaggedScript
