/-! # Deciding outcomes

Whether a run ends in a result of some property is decided by running it.
-/

namespace Synopsis

variable {α β σ ε : Type}

instance decidableOk (e : Except ε α) (p : α → Prop) [DecidablePred p] :
    Decidable (∃ a, e = .ok a ∧ p a) :=
  match e with
  | .ok a => decidable_of_iff (p a) (by simp)
  | .error _ => .isFalse (by simp)

instance decidableError (e : Except ε α) (p : ε → Prop) [DecidablePred p] :
    Decidable (∃ a, e = .error a ∧ p a) :=
  match e with
  | .ok _ => .isFalse (by simp)
  | .error a => decidable_of_iff (p a) (by simp)

instance decidableOkState [DecidableEq β] (r : EStateM.Result ε σ β) (b : β) (p : σ → Prop)
    [DecidablePred p] : Decidable (∃ s, r = .ok b s ∧ p s) :=
  match r with
  | .ok b' s => decidable_of_iff (b' = b ∧ p s) (by simp [and_assoc])
  | .error _ _ => .isFalse (by simp)

instance decidableSome (o : Option α) (p : α → Prop) [DecidablePred p] :
    Decidable (∃ a, o = some a ∧ p a) :=
  match o with
  | some a => decidable_of_iff (p a) (by simp)
  | none => .isFalse (by simp)

end Synopsis
