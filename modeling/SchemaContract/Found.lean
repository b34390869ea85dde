/-!
What is found at the front of a list: a value, and the rest of the list behind it. The type bounds
the length of the rest, so that whoever goes on reading there comes to an end. What is found in a
rest is found in the list too, so readings one after another all have the bound of the first.
-/
namespace SchemaContract

/-- A value, and the rest behind it, which has fewer than `bound` elements. -/
structure Found (σ : Type) (bound : Nat) (α : Type) where
  value : α
  rest : List σ
  within : rest.length < bound

namespace Found

variable {σ α β : Type} {a b : Nat}

/-- A value found before the rest, in one element or in none. -/
def before (value : α) (rest : List σ) : Found σ (rest.length + 1) α :=
  ⟨value, rest, Nat.lt_succ_self _⟩

def map (f : α → β) (found : Found σ a α) : Found σ a β :=
  ⟨f found.value, found.rest, found.within⟩

def widen (found : Found σ a α) (h : a ≤ b) : Found σ b α :=
  ⟨found.value, found.rest, Nat.lt_of_lt_of_le found.within h⟩

/-- Found with one element more to spare. -/
def lax (found : Found σ a α) : Found σ (a + 1) α :=
  ⟨found.value, found.rest, Nat.lt_succ_of_lt found.within⟩

/-- Found in a rest that is shorter than the list. -/
def after (found : Found σ a α) (h : a < b) : Found σ b α :=
  ⟨found.value, found.rest, Nat.lt_trans found.within h⟩

/-- Found in a rest that is not longer than the list. -/
def behind (found : Found σ a α) (h : a < b + 1) : Found σ b α :=
  ⟨found.value, found.rest, Nat.lt_of_lt_of_le found.within (Nat.le_of_lt_succ h)⟩

@[simp] theorem before_value (value : α) (rest : List σ) : (before value rest).value = value := rfl

@[simp] theorem before_rest (value : α) (rest : List σ) : (before value rest).rest = rest := rfl

@[simp] theorem map_value (f : α → β) (found : Found σ a α) :
    (found.map f).value = f found.value := rfl

@[simp] theorem map_rest (f : α → β) (found : Found σ a α) : (found.map f).rest = found.rest := rfl

@[simp] theorem widen_value (found : Found σ a α) (h : a ≤ b) :
    (found.widen h).value = found.value := rfl

@[simp] theorem widen_rest (found : Found σ a α) (h : a ≤ b) :
    (found.widen h).rest = found.rest := rfl

@[simp] theorem lax_value (found : Found σ a α) : found.lax.value = found.value := rfl

@[simp] theorem lax_rest (found : Found σ a α) : found.lax.rest = found.rest := rfl

@[simp] theorem after_value (found : Found σ a α) (h : a < b) :
    (found.after h).value = found.value := rfl

@[simp] theorem after_rest (found : Found σ a α) (h : a < b) :
    (found.after h).rest = found.rest := rfl

@[simp] theorem behind_value (found : Found σ a α) (h : a < b + 1) :
    (found.behind h).value = found.value := rfl

@[simp] theorem behind_rest (found : Found σ a α) (h : a < b + 1) :
    (found.behind h).rest = found.rest := rfl

end Found
end SchemaContract
