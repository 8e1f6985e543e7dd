/-!
# Disciplines for lists of operations

A discipline describes, for each kind of operation, the modes in which it may be
performed and the mode it leaves behind, as a transformer from what is required
afterwards to what is required before. A thread whose remaining operations
follow the discipline from its current mode can perform them to the end.
-/

namespace Xv6.Semantics

universe u v

variable {Op : Type u} {Mode : Type v}

/-- What is required of a mode so that the operations can be performed in order. -/
def Follows (rule : Op → (Mode → Prop) → Mode → Prop) (final : Mode → Prop) :
    List Op → Mode → Prop
  | [] => final
  | op :: rest => rule op (Follows rule final rest)

variable {rule : Op → (Mode → Prop) → Mode → Prop} {final : Mode → Prop}

@[simp] theorem follows_nil : Follows rule final [] = final := rfl

@[simp] theorem follows_cons (op : Op) (rest : List Op) :
    Follows rule final (op :: rest) = rule op (Follows rule final rest) := rfl

/-- Operations in front of others have to establish what the others require. -/
theorem follows_append (first second : List Op) :
    Follows rule final (first ++ second) = Follows rule (Follows rule final second) first := by
  induction first with
  | nil => rfl
  | cons op rest ih =>
    rw [List.cons_append, follows_cons, follows_cons, ih]

end Xv6.Semantics
