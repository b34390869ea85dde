import SchemaContract.Proofs.Json.Gives

/-!
Derivations of JSON: the readings of values, items and fields as one inductive relation. What is
derived is exactly what the readers find, so properties of all that can be read are inductions over
derivations, and a text is shown to be readable by deriving it.
-/
namespace SchemaContract.Json

open Found (Gives)

variable {depth : Nat} {cs rest : List Char}

inductive Part where
  | value (j : Json)
  | items (es : List Json)
  | moreItems (es : List Json)
  | field (f : Field)
  | fields (fs : List Field)
  | moreFields (fs : List Field)

def Part.Given (depth : Nat) (cs rest : List Char) : Part → Prop
  | value j => Gives (Json.value depth cs) j rest
  | items es => Gives (Json.items depth cs) es rest
  | moreItems es => Gives (Json.moreItems depth cs) es rest
  | field f => GivesField depth cs f rest
  | fields fs => Gives (Json.fields depth cs) fs rest
  | moreFields fs => Gives (Json.moreFields depth cs) fs rest

/-- A part stands in front of the rest of a text, with `depth` brackets left to open. -/
inductive Derives : Nat → Part → List Char → List Char → Prop where
  | scalar {depth : Nat} {cs rest : List Char} {j : Json} :
      Scalar (cs.dropWhile isSpace) j rest → Derives depth (.value j) cs rest
  | list {depth : Nat} {cs us rest : List Char} {es : List Json} :
      cs.dropWhile isSpace = '[' :: us → Derives depth (.items es) us rest →
      Derives (depth + 1) (.value (.list es)) cs rest
  | record {depth : Nat} {cs us rest : List Char} {fs : List Field} :
      cs.dropWhile isSpace = '{' :: us → Derives depth (.fields fs) us rest →
      Derives (depth + 1) (.value (ofFields fs)) cs rest
  | noItems {depth : Nat} {cs rest : List Char} :
      cs.dropWhile isSpace = ']' :: rest → Derives depth (.items []) cs rest
  | items {depth : Nat} {cs mid rest : List Char} {e : Json} {es : List Json} :
      Derives depth (.value e) cs mid → Derives depth (.moreItems es) mid rest →
      Derives depth (.items (e :: es)) cs rest
  | endItems {depth : Nat} {cs rest : List Char} :
      cs.dropWhile isSpace = ']' :: rest → Derives depth (.moreItems []) cs rest
  | moreItems {depth : Nat} {cs us mid rest : List Char} {e : Json} {es : List Json} :
      cs.dropWhile isSpace = ',' :: us → Derives depth (.value e) us mid →
      Derives depth (.moreItems es) mid rest → Derives depth (.moreItems (e :: es)) cs rest
  | field {depth : Nat} {cs us mid rest : List Char} {f : Field} :
      cs.dropWhile isSpace = '"' :: us → Gives (key us) f.key mid →
      Derives depth (.value f.value) mid rest → Derives depth (.field f) cs rest
  | noFields {depth : Nat} {cs rest : List Char} :
      cs.dropWhile isSpace = '}' :: rest → Derives depth (.fields []) cs rest
  | fields {depth : Nat} {cs mid rest : List Char} {f : Field} {fs : List Field} :
      Derives depth (.field f) cs mid → Derives depth (.moreFields fs) mid rest →
      Derives depth (.fields (f :: fs)) cs rest
  | endFields {depth : Nat} {cs rest : List Char} :
      cs.dropWhile isSpace = '}' :: rest → Derives depth (.moreFields []) cs rest
  | moreFields {depth : Nat} {cs us mid rest : List Char} {f : Field} {fs : List Field} :
      cs.dropWhile isSpace = ',' :: us → Derives depth (.field f) us mid →
      Derives depth (.moreFields fs) mid rest → Derives depth (.moreFields (f :: fs)) cs rest

theorem Derives.given {φ : Part} (h : Derives depth φ cs rest) : φ.Given depth cs rest := by
  induction h with
  | scalar h => exact gives_value_iff.2 (.inl h)
  | list h _ ih => exact gives_value_iff.2 (.inr ⟨_, rfl, .inl ⟨_, h, _, ih, rfl⟩⟩)
  | record h _ ih => exact gives_value_iff.2 (.inr ⟨_, rfl, .inr ⟨_, h, _, ih, rfl⟩⟩)
  | noItems h => exact gives_items_iff.2 (.inl ⟨h, rfl⟩)
  | items _ _ ih₁ ih₂ => exact gives_items_iff.2 (.inr ⟨_, _, ih₁, _, ih₂, rfl⟩)
  | endItems h => exact gives_moreItems_iff.2 (.inl ⟨h, rfl⟩)
  | moreItems h _ _ ih₁ ih₂ =>
    exact gives_moreItems_iff.2 (.inr ⟨_, h, _, _, ih₁, _, ih₂, rfl⟩)
  | field h hk _ ih => exact ⟨_, _, h, hk, ih⟩
  | noFields h => exact gives_fields_iff.2 (.inl ⟨h, rfl⟩)
  | fields _ _ ih₁ ih₂ => exact gives_fields_iff.2 (.inr ⟨_, _, ih₁, _, ih₂, rfl⟩)
  | endFields h => exact gives_moreFields_iff.2 (.inl ⟨h, rfl⟩)
  | moreFields h _ _ ih₁ ih₂ =>
    exact gives_moreFields_iff.2 (.inr ⟨_, h, _, _, ih₁, _, ih₂, rfl⟩)

/-- Items and fields may begin with a part that is read from the same text. -/
def Part.rank : Part → Nat
  | items _ | fields _ => 1
  | _ => 0

theorem length_lt_of_dropWhile {c : Char} {us : List Char} (h : cs.dropWhile isSpace = c :: us) :
    us.length < cs.length := by
  have hle := (List.dropWhile_suffix (l := cs) isSpace).length_le
  rw [h] at hle
  exact hle

theorem GivesField.length_lt {f : Field} (h : GivesField depth cs f rest) :
    rest.length < cs.length := by
  obtain ⟨us, mid, hs, hk, hv⟩ := h
  have h₁ := length_lt_of_dropWhile hs
  have h₂ := hk.length_lt
  have h₃ := hv.length_lt
  omega

/-- What the readers find is derived. The induction is on the characters that are left. -/
theorem Part.Given.derives {φ : Part} (h : φ.Given depth cs rest) : Derives depth φ cs rest := by
  generalize hn : 2 * cs.length + φ.rank = n
  induction n using Nat.strongRecOn generalizing depth φ cs rest with
  | _ n ih =>
    have step {left : Nat} {ψ : Part} {us us' : List Char} (hg : ψ.Given left us us')
        (hlt : 2 * us.length + ψ.rank < n) : Derives left ψ us us' := ih _ hlt hg rfl
    cases φ with
    | value j =>
      simp only [rank] at hn
      obtain h | ⟨left, rfl, ⟨us, hs, es, h₁, rfl⟩ | ⟨us, hs, fs, h₁, rfl⟩⟩ :=
        gives_value_iff.1 h
      · exact .scalar h
      · have hl := length_lt_of_dropWhile hs
        exact .list hs (step (ψ := .items es) h₁ (by simp only [rank]; omega))
      · have hl := length_lt_of_dropWhile hs
        exact .record hs (step (ψ := .fields fs) h₁ (by simp only [rank]; omega))
    | items es =>
      simp only [rank] at hn
      obtain ⟨hs, rfl⟩ | ⟨first, mid, h₁, others, h₂, rfl⟩ := gives_items_iff.1 h
      · exact .noItems hs
      · have hl := h₁.length_lt
        exact .items (step (ψ := .value first) h₁ (by simp only [rank]; omega))
          (step (ψ := .moreItems others) h₂ (by simp only [rank]; omega))
    | moreItems es =>
      simp only [rank] at hn
      obtain ⟨hs, rfl⟩ | ⟨us, hs, item, mid, h₁, others, h₂, rfl⟩ := gives_moreItems_iff.1 h
      · exact .endItems hs
      · have hl := length_lt_of_dropWhile hs
        have hm := h₁.length_lt
        exact .moreItems hs (step (ψ := .value item) h₁ (by simp only [rank]; omega))
          (step (ψ := .moreItems others) h₂ (by simp only [rank]; omega))
    | field f =>
      simp only [rank] at hn
      obtain ⟨us, mid, hs, hk, h₁⟩ := h
      have hl := length_lt_of_dropWhile hs
      have hm := hk.length_lt
      exact .field hs hk (step (ψ := .value f.value) h₁ (by simp only [rank]; omega))
    | fields fs =>
      simp only [rank] at hn
      obtain ⟨hs, rfl⟩ | ⟨first, mid, h₁, others, h₂, rfl⟩ := gives_fields_iff.1 h
      · exact .noFields hs
      · have hl := h₁.length_lt
        exact .fields (step (ψ := .field first) h₁ (by simp only [rank]; omega))
          (step (ψ := .moreFields others) h₂ (by simp only [rank]; omega))
    | moreFields fs =>
      simp only [rank] at hn
      obtain ⟨hs, rfl⟩ | ⟨us, hs, f, mid, h₁, others, h₂, rfl⟩ := gives_moreFields_iff.1 h
      · exact .endFields hs
      · have hl := length_lt_of_dropWhile hs
        have hm := h₁.length_lt
        exact .moreFields hs (step (ψ := .field f) h₁ (by simp only [rank]; omega))
          (step (ψ := .moreFields others) h₂ (by simp only [rank]; omega))

theorem derives_iff_given {φ : Part} : Derives depth φ cs rest ↔ φ.Given depth cs rest :=
  ⟨Derives.given, Part.Given.derives⟩

theorem Derives.mono {φ : Part} (h : Derives depth φ cs rest) {more : Nat} (hle : depth ≤ more) :
    Derives more φ cs rest := by
  induction h generalizing more with
  | scalar h => exact .scalar h
  | list h _ ih =>
    obtain ⟨left, rfl⟩ := Nat.exists_eq_add_of_le' hle
    exact .list h (ih (Nat.le_add_left _ _))
  | record h _ ih =>
    obtain ⟨left, rfl⟩ := Nat.exists_eq_add_of_le' hle
    exact .record h (ih (Nat.le_add_left _ _))
  | noItems h => exact .noItems h
  | items _ _ ih₁ ih₂ => exact .items (ih₁ hle) (ih₂ hle)
  | endItems h => exact .endItems h
  | moreItems h _ _ ih₁ ih₂ => exact .moreItems h (ih₁ hle) (ih₂ hle)
  | field h hk _ ih => exact .field h hk (ih hle)
  | noFields h => exact .noFields h
  | fields _ _ ih₁ ih₂ => exact .fields (ih₁ hle) (ih₂ hle)
  | endFields h => exact .endFields h
  | moreFields h _ _ ih₁ ih₂ => exact .moreFields h (ih₁ hle) (ih₂ hle)

end SchemaContract.Json
