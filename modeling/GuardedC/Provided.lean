import GuardedC.Expr

/-!
# Values with conditions

A `Provided α` is a value that is meant only where certain conditions hold. Operations on byte views
yield such values: they say what has to be asserted, in which order, and what they compute, and
leave it to the session to assert it.
-/

namespace GuardedC

structure Provided (α : Type) where
  conditions : List Cond
  value : α
deriving Repr, DecidableEq

namespace Provided

/-- The conditions of the second value come after those of the first. -/
def bind {α β : Type} (x : Provided α) (f : α → Provided β) : Provided β where
  conditions := x.conditions ++ (f x.value).conditions
  value := (f x.value).value

instance : Monad Provided where
  pure a := ⟨[], a⟩
  bind := bind

variable {α β : Type}

@[simp] theorem conditions_pure (a : α) : (pure a : Provided α).conditions = [] := rfl

@[simp] theorem value_pure (a : α) : (pure a : Provided α).value = a := rfl

@[simp] theorem conditions_bind (x : Provided α) (f : α → Provided β) :
    (x >>= f).conditions = x.conditions ++ (f x.value).conditions := rfl

@[simp] theorem value_bind (x : Provided α) (f : α → Provided β) :
    (x >>= f).value = (f x.value).value := rfl

@[simp] theorem conditions_map (f : α → β) (x : Provided α) : (f <$> x).conditions = x.conditions :=
  List.append_nil _

@[simp] theorem value_map (f : α → β) (x : Provided α) : (f <$> x).value = f x.value := rfl

end Provided

end GuardedC
