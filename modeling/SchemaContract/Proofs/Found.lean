import SchemaContract.Found

/-!
What readers find when they succeed, without the bounds that make them terminate.
-/
namespace SchemaContract.Found

variable {ε σ α β : Type} {a b : Nat} {rest : List σ}

/-- A reader succeeds with a value and leaves a rest. -/
def Gives (reading : Except ε (Found σ a α)) (value : α) (rest : List σ) : Prop :=
  ∃ h, reading = .ok ⟨value, rest, h⟩

theorem gives_def {reading : Except ε (Found σ a α)} {v : α} :
    Gives reading v rest ↔ ∃ h, reading = .ok ⟨v, rest, h⟩ :=
  Iff.rfl

theorem Gives.length_lt {reading : Except ε (Found σ a α)} {v : α}
    (h : Gives reading v rest) : rest.length < a :=
  h.1

theorem Gives.unique {reading : Except ε (Found σ a α)} {v v' : α} {rest' : List σ}
    (h : Gives reading v rest) (h' : Gives reading v' rest') : v = v' ∧ rest = rest' := by
  obtain ⟨_, h⟩ := h
  obtain ⟨_, h'⟩ := h'
  cases h.symm.trans h'
  exact ⟨rfl, rfl⟩

theorem gives_ok_iff {found : Found σ a α} {v : α} :
    Gives (.ok found : Except ε (Found σ a α)) v rest ↔ found.value = v ∧ found.rest = rest := by
  constructor
  · rintro ⟨h, he⟩
    cases he
    exact ⟨rfl, rfl⟩
  · rintro ⟨rfl, rfl⟩
    exact ⟨found.within, rfl⟩

theorem not_gives_error {fault : ε} {v : α} :
    ¬ Gives (.error fault : Except ε (Found σ a α)) v rest := by
  rintro ⟨h, he⟩
  cases he

theorem gives_error_iff {fault : ε} {v : α} :
    Gives (.error fault : Except ε (Found σ a α)) v rest ↔ False :=
  iff_false_intro not_gives_error

theorem gives_bind_iff {x : Except ε (Found σ a α)}
    {f : Found σ a α → Except ε (Found σ b β)} {w : β} :
    Gives (x >>= f) w rest ↔ ∃ v mid h, x = .ok ⟨v, mid, h⟩ ∧ Gives (f ⟨v, mid, h⟩) w rest := by
  constructor
  · intro h
    cases x with
    | error fault => exact absurd h not_gives_error
    | ok found => exact ⟨found.value, found.rest, found.within, rfl, h⟩
  · rintro ⟨v, mid, h, rfl, hf⟩
    exact hf

/-- Where what comes behind a reading does not depend on the bound of its rest. -/
theorem gives_bind_iff_of {x : Except ε (Found σ a α)}
    {f : Found σ a α → Except ε (Found σ b β)} {w : β} {P : α → List σ → Prop}
    (hP : ∀ v mid h, Gives (f ⟨v, mid, h⟩) w rest ↔ P v mid) :
    Gives (x >>= f) w rest ↔ ∃ v mid, Gives x v mid ∧ P v mid := by
  simp only [gives_bind_iff, hP, exists_and_right, ← gives_def]

end SchemaContract.Found
