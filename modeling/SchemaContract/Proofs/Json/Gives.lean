import Mathlib
import SchemaContract.Json.Printer
import SchemaContract.Json.Reader
import SchemaContract.Proofs.Found

/-!
What the readers of JSON text find when they succeed. There is one equivalence for each reader;
whoever reasons about a reader uses it and never unfolds the reader again.
-/
namespace SchemaContract.Json

open Found (Gives gives_def gives_ok_iff gives_error_iff gives_bind_iff)

variable {cs rest : List Char}

theorem next?_of_nil (h : cs.dropWhile isSpace = []) : next? cs = none := by
  induction cs with
  | nil => rfl
  | cons c cs ih =>
    by_cases hc : isSpace c = true
    · rw [List.dropWhile_cons_of_pos hc] at h
      rw [next?, if_pos hc, ih h]
      rfl
    · rw [List.dropWhile_cons_of_neg hc] at h
      cases h

theorem next?_of_cons {c : Char} {us : List Char} (h : cs.dropWhile isSpace = c :: us) :
    ∃ hlt, next? cs = some ⟨c, us, hlt⟩ := by
  induction cs with
  | nil => cases h
  | cons d cs ih =>
    by_cases hd : isSpace d = true
    · rw [List.dropWhile_cons_of_pos hd] at h
      obtain ⟨hlt, hn⟩ := ih h
      refine ⟨Nat.lt_succ_of_lt hlt, ?_⟩
      rw [next?, if_pos hd, hn]
      rfl
    · rw [List.dropWhile_cons_of_neg hd] at h
      cases h
      refine ⟨Nat.lt_succ_self _, ?_⟩
      rw [next?, if_neg hd]
      rfl

theorem gives_word_iff {v j : Json} {ws : List Char} :
    Gives (word v ws cs) j rest ↔ cs = ws ++ rest ∧ v = j := by
  induction ws generalizing cs with
  | nil =>
    rw [word, gives_ok_iff]
    exact and_comm
  | cons w ws ih =>
    cases cs with
    | nil => simp [word, gives_error_iff]
    | cons c cs =>
      rw [word]
      split
      · next hc =>
        subst hc
        rw [List.cons_append, List.cons_inj_right, ← ih]
        simp only [gives_bind_iff, gives_ok_iff, Found.lax, exists_and_right, ← gives_def]
        grind
      · next hc => simp [gives_error_iff, hc]

theorem gives_colon_iff {u : Unit} :
    Gives (colon cs) u rest ↔ cs.dropWhile isSpace = ':' :: rest := by
  unfold colon
  cases hs : cs.dropWhile isSpace with
  | nil => simp [next?_of_nil hs, gives_error_iff]
  | cons c us =>
    obtain ⟨hlt, hn⟩ := next?_of_cons hs
    rw [hn]
    by_cases hc : c = ':'
    · subst hc
      simp [gives_ok_iff]
    · split <;> simp_all [gives_error_iff]

theorem gives_key_iff {k : String} :
    Gives (key cs) k rest ↔
      ∃ chars mid, Gives (quotedChars cs) chars mid ∧ mid.dropWhile isSpace = ':' :: rest ∧
        String.ofList chars = k := by
  unfold key
  simp only [gives_bind_iff, gives_ok_iff, Found.after, exists_and_right, ← gives_def,
    gives_colon_iff]
  grind

/-- A value without brackets in front of the rest. -/
inductive Scalar : List Char → Json → List Char → Prop where
  | null {rest : List Char} : Scalar ('n' :: 'u' :: 'l' :: 'l' :: rest) .null rest
  | truth {rest : List Char} : Scalar ('t' :: 'r' :: 'u' :: 'e' :: rest) (.boolean true) rest
  | falsity {rest : List Char} :
      Scalar ('f' :: 'a' :: 'l' :: 's' :: 'e' :: rest) (.boolean false) rest
  | negative {cs rest : List Char} {j : Json} (h : Gives (Number.read true cs) j rest) :
      Scalar ('-' :: cs) j rest
  | number {c : Char} {cs rest : List Char} {j : Json} (hc : c.isDigit = true)
      (h : Gives (Number.read false (c :: cs)) j rest) : Scalar (c :: cs) j rest
  | text {cs rest chars : List Char} (h : Gives (quotedChars cs) chars rest) :
      Scalar ('"' :: cs) (.text (String.ofList chars)) rest

theorem not_scalar_nil {j : Json} : ¬ Scalar [] j rest := by
  intro h
  cases h

/-- A scalar is told by its first character. -/
theorem scalar_cons_iff {c : Char} {j : Json} :
    Scalar (c :: cs) j rest ↔
      c = 'n' ∧ cs = ['u', 'l', 'l'] ++ rest ∧ .null = j ∨
      c = 't' ∧ cs = ['r', 'u', 'e'] ++ rest ∧ .boolean true = j ∨
      c = 'f' ∧ cs = ['a', 'l', 's', 'e'] ++ rest ∧ .boolean false = j ∨
      c = '-' ∧ Gives (Number.read true cs) j rest ∨
      c.isDigit = true ∧ Gives (Number.read false (c :: cs)) j rest ∨
      c = '"' ∧ ∃ chars, Gives (quotedChars cs) chars rest ∧ .text (String.ofList chars) = j := by
  constructor
  · generalize hus : c :: cs = us
    intro h
    cases h with
    | text h => cases hus; exact .inr (.inr (.inr (.inr (.inr ⟨rfl, _, h, rfl⟩))))
    | _ => cases hus; simp_all
  · rintro (⟨rfl, rfl, rfl⟩ | ⟨rfl, rfl, rfl⟩ | ⟨rfl, rfl, rfl⟩ | ⟨rfl, h⟩ | ⟨hc, h⟩ |
      ⟨rfl, chars, h, rfl⟩)
    · exact .null
    · exact .truth
    · exact .falsity
    · exact .negative h
    · exact .number hc h
    · exact .text h

theorem gives_value_iff {depth : Nat} {j : Json} :
    Gives (value depth cs) j rest ↔
      Scalar (cs.dropWhile isSpace) j rest ∨
        ∃ left, depth = left + 1 ∧
          ((∃ us, cs.dropWhile isSpace = '[' :: us ∧
              ∃ es, Gives (items left us) es rest ∧ .list es = j) ∨
            ∃ us, cs.dropWhile isSpace = '{' :: us ∧
              ∃ fs, Gives (fields left us) fs rest ∧ ofFields fs = j) := by
  rw [value]
  cases hs : cs.dropWhile isSpace with
  | nil => simp [next?_of_nil hs, gives_error_iff, not_scalar_nil]
  | cons c us =>
    obtain ⟨hlt, hn⟩ := next?_of_cons hs
    have hdigit (hc : c.isDigit = true) : c ≠ '"' ∧ c ≠ '[' ∧ c ≠ '{' := by
      refine ⟨?_, ?_, ?_⟩ <;> rintro rfl <;> cases hc
    rw [hn]
    dsimp only
    -- one branch for each first character, and for brackets one with none left to open
    repeat' split
    all_goals try subst c
    all_goals simp only [gives_bind_iff, gives_ok_iff, gives_error_iff, Found.widen, Found.after,
      exists_and_right, ← gives_def, gives_word_iff]
    all_goals simp_all [scalar_cons_iff]

theorem not_gives_value_of_nil {depth : Nat} {j : Json} (h : cs.dropWhile isSpace = []) :
    ¬ Gives (value depth cs) j rest := by
  simp [gives_value_iff, h, not_scalar_nil]

theorem not_gives_value_of_cons {depth : Nat} {j : Json} {c : Char} {us : List Char}
    (h : cs.dropWhile isSpace = c :: us) (hc : c = ']' ∨ c = '}') :
    ¬ Gives (value depth cs) j rest := by
  rcases hc with rfl | rfl <;> simp [gives_value_iff, h, scalar_cons_iff]

theorem gives_items_iff {depth : Nat} {es : List Json} :
    Gives (items depth cs) es rest ↔
      cs.dropWhile isSpace = ']' :: rest ∧ [] = es ∨
        ∃ first mid, Gives (value depth cs) first mid ∧
          ∃ others, Gives (moreItems depth mid) others rest ∧ first :: others = es := by
  rw [items]
  cases hs : cs.dropWhile isSpace with
  | nil => simp [next?_of_nil hs, gives_error_iff, not_gives_value_of_nil hs]
  | cons c us =>
    obtain ⟨hlt, hn⟩ := next?_of_cons hs
    rw [hn]
    by_cases hc : c = ']'
    · subst hc
      simp [gives_ok_iff, not_gives_value_of_cons hs, and_comm]
    · split <;> simp_all [gives_bind_iff, gives_ok_iff, Found.after, exists_and_right, ← gives_def]

theorem gives_moreItems_iff {depth : Nat} {es : List Json} :
    Gives (moreItems depth cs) es rest ↔
      cs.dropWhile isSpace = ']' :: rest ∧ [] = es ∨
        ∃ us, cs.dropWhile isSpace = ',' :: us ∧
          ∃ item mid, Gives (value depth us) item mid ∧
            ∃ others, Gives (moreItems depth mid) others rest ∧ item :: others = es := by
  rw [moreItems]
  cases hs : cs.dropWhile isSpace with
  | nil => simp [next?_of_nil hs, gives_error_iff]
  | cons c us =>
    obtain ⟨hlt, hn⟩ := next?_of_cons hs
    rw [hn]
    by_cases hc : c = ']'
    · subst hc
      simp [gives_ok_iff, and_comm]
    by_cases hc : c = ','
    · subst hc
      cases hs' : us.dropWhile isSpace with
      | nil => simp [next?_of_nil hs', gives_error_iff, not_gives_value_of_nil hs']
      | cons d vs =>
        obtain ⟨hlt', hn'⟩ := next?_of_cons hs'
        simp only [hn']
        by_cases hd : d = ']'
        · subst hd
          simp [gives_error_iff, not_gives_value_of_cons hs']
        · split <;> simp_all [gives_bind_iff, gives_ok_iff, Found.after, exists_and_right,
            ← gives_def]
    · split <;> simp_all [gives_error_iff]

theorem exists_field_iff {P : Field → Prop} : (∃ f, P f) ↔ ∃ k v, P ⟨k, v⟩ :=
  ⟨fun ⟨⟨k, v⟩, h⟩ => ⟨k, v, h⟩, fun ⟨k, v, h⟩ => ⟨⟨k, v⟩, h⟩⟩

/-- A field stands in front of the rest. -/
def GivesField (depth : Nat) (cs : List Char) (f : Field) (rest : List Char) : Prop :=
  ∃ us mid, cs.dropWhile isSpace = '"' :: us ∧ Gives (key us) f.key mid ∧
    Gives (value depth mid) f.value rest

theorem gives_fields_iff {depth : Nat} {fs : List Field} :
    Gives (fields depth cs) fs rest ↔
      cs.dropWhile isSpace = '}' :: rest ∧ [] = fs ∨
        ∃ first mid, GivesField depth cs first mid ∧
          ∃ others, Gives (moreFields depth mid) others rest ∧ first :: others = fs := by
  rw [fields]
  unfold GivesField
  cases hs : cs.dropWhile isSpace with
  | nil => simp [next?_of_nil hs, gives_error_iff]
  | cons c us =>
    obtain ⟨hlt, hn⟩ := next?_of_cons hs
    rw [hn]
    by_cases hc : c = '}'
    · subst hc
      simp [gives_ok_iff, and_comm]
    by_cases hc : c = '"'
    · subst hc
      simp [gives_bind_iff, gives_ok_iff, Found.after, exists_and_right, ← gives_def,
        exists_field_iff]
      grind
    · split <;> simp_all [gives_error_iff]

theorem gives_moreFields_iff {depth : Nat} {fs : List Field} :
    Gives (moreFields depth cs) fs rest ↔
      cs.dropWhile isSpace = '}' :: rest ∧ [] = fs ∨
        ∃ us, cs.dropWhile isSpace = ',' :: us ∧
          ∃ f mid, GivesField depth us f mid ∧
            ∃ others, Gives (moreFields depth mid) others rest ∧ f :: others = fs := by
  rw [moreFields]
  unfold GivesField
  cases hs : cs.dropWhile isSpace with
  | nil => simp [next?_of_nil hs, gives_error_iff]
  | cons c us =>
    obtain ⟨hlt, hn⟩ := next?_of_cons hs
    rw [hn]
    by_cases hc : c = '}'
    · subst hc
      simp [gives_ok_iff, and_comm]
    by_cases hc : c = ','
    · subst hc
      cases hs' : us.dropWhile isSpace with
      | nil => simp [next?_of_nil hs', hs', gives_error_iff]
      | cons d vs =>
        obtain ⟨hlt', hn'⟩ := next?_of_cons hs'
        simp only [hn']
        by_cases hd : d = '"'
        · subst hd
          simp [gives_bind_iff, gives_ok_iff, Found.after, exists_and_right, ← gives_def,
            exists_field_iff]
          grind
        · split <;> simp_all [gives_error_iff]
    · split <;> simp_all [gives_error_iff]

end SchemaContract.Json
