import TaggedScript.Proofs.Compilation.Calls

/-!
How code does what a piece of a function means, put together from the code of smaller pieces.
-/
namespace TaggedScript

/-- Code at a place, begun with these operands, does what is meant and leaves the operands that
belong to the result. Each of its instructions takes at most `cost` steps, and its words outnumber
the operands that it adds. -/
structure Does {α : Type} (I : Image) (S : Stretch) (ctx : Context) (cost pc : Nat)
    (is : List Instr) (vals : List Value) (m : Meaning α) (post : α → List Value) : Prop where
  few : ∀ v, (∃ σ τ, m σ = .ok v τ) → (post v).length ≤ vals.length + codeWidth is
  leads : S.HasAt ctx pc vals is → ∀ σ a, At I ctx σ pc vals a →
    Leads (Sane I) S
      (Ends I S ctx (fun v τ b => At I ctx τ (pc + codeWidth is) (post v) b) (m σ))
      (is.length * cost) a

namespace Does
variable {α β : Type} {I : Image} {S : Stretch} {ctx : Context} {cost pc : Nat}
  {is js : List Instr} {vals others : List Value} {m : Meaning α} {post : α → List Value}

/-- One piece after the other. The second is chosen by a result that the first has. -/
theorem bind {f : α → Meaning β} {post' : β → List Value}
    (first : Does I S ctx cost pc is vals m post)
    (second : ∀ v, (∃ σ τ, m σ = .ok v τ) →
      Does I S ctx cost (pc + codeWidth is) js (post v) (f v) post') :
    Does I S ctx cost pc (is ++ js) vals (m >>= f) post' where
  few u result := by
    obtain ⟨σ, τ, result⟩ := result
    obtain ⟨v, ρ, came, rest⟩ := ok_of_bind result
    have before := first.few v ⟨σ, ρ, came⟩
    have after := (second v ⟨σ, ρ, came⟩).few u ⟨ρ, τ, rest⟩
    rw [codeWidth_append]
    omega
  leads here σ a at_a := by
    have steps : (is ++ js).length * cost = is.length * cost + js.length * cost := by
      rw [List.length_append, Nat.add_mul]
    rw [steps]
    refine (first.leads here.left σ a at_a).bind fun v τ b result at_b => ?_
    rw [codeWidth_append, ← Nat.add_assoc]
    exact (second v ⟨σ, τ, result⟩).leads (here.right (first.few v ⟨σ, τ, result⟩)) τ b at_b

/-- What only moves operands comes before a piece. -/
theorem after (first : Does I S ctx cost pc is vals (pure () : Meaning Unit) fun _ => others)
    (second : Does I S ctx cost (pc + codeWidth is) js others m post) :
    Does I S ctx cost pc (is ++ js) vals m post :=
  bind (f := fun _ => m) first fun _ _ => second

/-- No code is needed to return what is there. -/
theorem done {v : α} (same : post v = vals) : Does I S ctx cost pc [] vals (pure v) post where
  few u result := by
    obtain ⟨σ, τ, result⟩ := result
    obtain ⟨rfl, -⟩ := ok_of_pure result
    rw [same]
    exact Nat.le_add_right _ _
  leads _ σ a at_a := by
    refine .here ?_
    rw [← same] at at_a
    exact at_a

/-- The result is made of that of a piece. -/
theorem returns {f : α → β} {post' : β → List Value} (h : Does I S ctx cost pc is vals m post)
    (same : ∀ v, post' (f v) = post v) :
    Does I S ctx cost pc is vals (m >>= fun v => pure (f v)) post' := by
  have last : ∀ v, (∃ σ τ, m σ = .ok v τ) →
      Does I S ctx cost (pc + codeWidth is) [] (post v) (pure (f v)) post' := fun v _ => done (same v)
  have whole := h.bind last
  rwa [List.append_nil] at whole

/-- What only moves operands leaves those that belong to a result. -/
theorem leaves {v : α} (h : Does I S ctx cost pc is vals (pure () : Meaning Unit) fun _ => others)
    (same : post v = others) : Does I S ctx cost pc is vals (pure v) post :=
  h.returns (f := fun _ => v) fun _ => same

/-- An instruction that only moves operands comes before a piece. -/
theorem cons {i : Instr}
    (first : Does I S ctx cost pc [i] vals (pure () : Meaning Unit) fun _ => others)
    (second : Does I S ctx cost (pc + codeWidth [i]) js others m post) :
    Does I S ctx cost pc (i :: js) vals m post := after first second

/-- An instruction that has a result comes before a piece. -/
theorem bindCons {i : Instr} {f : α → Meaning β} {post' : β → List Value}
    (first : Does I S ctx cost pc [i] vals m post)
    (second : ∀ v, Does I S ctx cost (pc + codeWidth [i]) js (post v) (f v) post') :
    Does I S ctx cost pc (i :: js) vals (m >>= f) post' :=
  first.bind fun v _ => second v

/-- An instruction. -/
theorem one {i : Instr} (positive : 0 < cost) (few : ∀ v, (post v).length ≤ vals.length + 1)
    (h : S.HasAt ctx pc vals [i] → ∀ σ a, At I ctx σ pc vals a →
      Leads (Sane I) S (Ends I S ctx (fun v τ b => At I ctx τ (pc + i.width) (post v) b) (m σ)) 1
        a) :
    Does I S ctx cost pc [i] vals m post where
  few v _ := by
    rw [codeWidth_cons, codeWidth_nil]
    exact Nat.le_trans (few v) (Nat.add_le_add_left i.width_pos _)
  leads here σ a at_a := by
    have width : codeWidth [i] = i.width := by simp
    rw [width]
    exact (h here σ a at_a).more (by rw [List.length_singleton, Nat.one_mul]; exact positive)

section
variable (positive : 0 < cost)
include positive

theorem const {w : Word} {v : Value} (means : ∀ σ b, Holds I σ b → Denotes I σ b w v) :
    Does I S ctx cost pc [.const w] vals (pure ()) fun _ => v :: vals :=
  one positive (fun _ => Nat.le_refl _) fun here σ _ at_a => at_a.const here (means σ)

theorem dup {v : Value} :
    Does I S ctx cost pc [.dup] (v :: vals) (pure ()) fun _ => v :: v :: vals :=
  one positive (fun _ => Nat.le_refl _) fun here _ _ at_a => at_a.dup here

theorem drop {v : Value} : Does I S ctx cost pc [.pop] (v :: vals) (pure ()) fun _ => vals :=
  one positive (fun _ => Nat.le_add_right _ 2) fun here _ _ at_a => at_a.drop here

theorem swap {u v : Value} :
    Does I S ctx cost pc [.swap] (u :: v :: vals) (pure ()) fun _ => v :: u :: vals :=
  one positive (fun _ => Nat.le_succ _) fun here _ _ at_a => at_a.swap here

theorem get {w : Word} {x : String} {v : Value} (name : NameOf I w x) :
    Does I S ctx cost pc [.get w] (v :: vals) (Meaning.getField v x) fun u => u :: vals :=
  one positive (fun _ => Nat.le_succ _) fun here _ _ at_a => at_a.get name here

theorem put {w : Word} {x : String} {v r : Value} (name : NameOf I w x) :
    Does I S ctx cost pc [.put w] (v :: r :: vals) (Meaning.setField r x v) fun _ => vals :=
  one positive (fun _ => Nat.le_add_right _ 3) fun here _ _ at_a => at_a.put name here

theorem new {w : Word} {t : Table} (class_ : ClassOf I w (t.map (·.1))) :
    Does I S ctx cost pc [.new w] ((t.map (·.2)).reverse ++ vals) (Meaning.newRecord t)
      fun u => u :: vals :=
  one positive (fun _ => by simp) fun here _ _ at_a => at_a.new class_ here

theorem print {v : Value} :
    Does I S ctx cost pc [.print] (v :: vals) (Meaning.print v) fun u => u :: vals :=
  one positive (fun _ => Nat.le_succ _) fun here _ _ at_a => at_a.print here

theorem register {w : Word} {x : String} {v : Value} (name : NameOf I w x) :
    Does I S ctx cost pc [.register w] (v :: vals)
      (modify fun σ => { σ with world := σ.world.setGlobal x v }) fun _ => vals :=
  one positive (fun _ => Nat.le_add_right _ 2) fun here _ _ at_a => at_a.register name here

end

theorem call {apply : Applier} {depth : Nat} (calls : CallsWithin I S apply depth cost)
    (deep : depth + ctx.callers.length = S.limit) {callee receiver : Value} {args : List Value} :
    Does I S ctx cost pc [.funcall args.length] (args.reverse ++ receiver :: callee :: vals)
      (apply callee receiver args) fun u => u :: vals where
  few _ _ := by
    simp
    omega
  leads here σ a at_a := by
    have one : [Instr.funcall args.length].length * cost = cost := by simp
    rw [one]
    exact calls ctx σ pc vals callee receiver args [] a deep here at_a

end Does
end TaggedScript
