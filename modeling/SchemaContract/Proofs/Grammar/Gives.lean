import SchemaContract.Grammar.Expression
import SchemaContract.Proofs.Found

/-!
What the rules of the grammar find when they succeed, without the bounds that make them terminate.
There is one equivalence for each rule; whoever reasons about a rule uses it and never unfolds the
rule again.
-/
namespace SchemaContract.Grammar

variable {α β : Type} {a b : Nat} {ts rest : List Token}

/-- A rule succeeds with a value and leaves a rest. -/
def Gives (reading : Except Fault (Found Token a α)) (value : α) (rest : List Token) : Prop :=
  ∃ h, reading = .ok ⟨value, rest, h⟩

theorem gives_def {reading : Except Fault (Found Token a α)} {v : α} :
    Gives reading v rest ↔ ∃ h, reading = .ok ⟨v, rest, h⟩ :=
  Iff.rfl

theorem Gives.length_lt {reading : Except Fault (Found Token a α)} {v : α}
    (h : Gives reading v rest) : rest.length < a :=
  h.1

theorem Gives.unique {reading : Except Fault (Found Token a α)} {v v' : α} {rest' : List Token}
    (h : Gives reading v rest) (h' : Gives reading v' rest') : v = v' ∧ rest = rest' :=
  Found.Gives.unique h h'

theorem gives_ok_iff {found : Found Token a α} {v : α} :
    Gives (.ok found) v rest ↔ found.value = v ∧ found.rest = rest :=
  Found.gives_ok_iff

theorem not_gives_error {fault : Fault} {v : α} :
    ¬ Gives (.error fault : Except Fault (Found Token a α)) v rest :=
  Found.not_gives_error

theorem gives_error_iff {fault : Fault} {v : α} :
    Gives (.error fault : Except Fault (Found Token a α)) v rest ↔ False :=
  iff_false_intro not_gives_error

theorem gives_bind_iff {x : Except Fault (Found Token a α)}
    {f : Found Token a α → Except Fault (Found Token b β)} {w : β} :
    Gives (x >>= f) w rest ↔ ∃ v mid h, x = .ok ⟨v, mid, h⟩ ∧ Gives (f ⟨v, mid, h⟩) w rest :=
  Found.gives_bind_iff

/-- Where what comes behind a reading does not depend on the bound of its rest. -/
theorem gives_bind_iff_of {x : Except Fault (Found Token a α)}
    {f : Found Token a α → Except Fault (Found Token b β)} {w : β} {P : α → List Token → Prop}
    (hP : ∀ v mid h, Gives (f ⟨v, mid, h⟩) w rest ↔ P v mid) :
    Gives (x >>= f) w rest ↔ ∃ v mid, Gives x v mid ∧ P v mid :=
  Found.gives_bind_iff_of hP

@[simp] theorem mark?_nil (m : Mark) : mark? m [] = none := rfl

theorem mark?_cons_of_eq {m : Mark} {t : Token} (h : t.kind = .mark m) :
    mark? m (t :: ts) = some (.before () ts) :=
  if_pos h

theorem mark?_cons_of_ne {m : Mark} {t : Token} (h : t.kind ≠ .mark m) :
    mark? m (t :: ts) = none :=
  if_neg h

theorem mark?_cons_eq_none_iff {m : Mark} {t : Token} :
    mark? m (t :: ts) = none ↔ t.kind ≠ .mark m := by
  constructor
  · intro h ht
    simp [mark?_cons_of_eq ht] at h
  · exact mark?_cons_of_ne

theorem mark?_cases (m : Mark) (ts : List Token) :
    mark? m ts = none ∨ ∃ t us, ts = t :: us ∧ t.kind = .mark m := by
  cases ts with
  | nil => exact .inl rfl
  | cons t us =>
    by_cases h : t.kind = .mark m
    · exact .inr ⟨t, us, rfl, h⟩
    · exact .inl (mark?_cons_of_ne h)

theorem gives_mark_iff {m : Mark} {what : Expectation} {u : Unit} :
    Gives (mark m what ts) u rest ↔ ∃ t, ts = t :: rest ∧ t.kind = .mark m := by
  unfold mark
  cases ts with
  | nil => simp [gives_error_iff]
  | cons t ts =>
    by_cases h : t.kind = .mark m
    · rw [mark?_cons_of_eq h]
      simp [gives_ok_iff, h, and_assoc]
    · rw [mark?_cons_of_ne h]
      simp [gives_error_iff, h]

theorem optionalMark_of_eq {m : Mark} {t : Token} (h : t.kind = .mark m) :
    (optionalMark m (t :: ts)).value = true ∧ (optionalMark m (t :: ts)).rest = ts := by
  unfold optionalMark
  rw [mark?_cons_of_eq h]
  exact ⟨rfl, rfl⟩

theorem optionalMark_of_none {m : Mark} (h : mark? m ts = none) :
    (optionalMark m ts).value = false ∧ (optionalMark m ts).rest = ts := by
  unfold optionalMark
  rw [h]
  exact ⟨rfl, rfl⟩

theorem arrayBrackets_suffix (e : Expression) (ts : List Token) :
    (arrayBrackets e ts).rest <:+ ts := by
  fun_induction arrayBrackets e ts with
  | case1 e t u ts _ ih => exact ih.trans ⟨[t, u], rfl⟩
  | case2 => exact List.suffix_rfl
  | case3 => exact List.suffix_rfl

theorem gives_name_iff {what : Expectation} {n : String} :
    Gives (name what ts) n rest ↔ ∃ t, ts = t :: rest ∧ t.kind = .name n := by
  cases ts with
  | nil => simp [name, gives_error_iff]
  | cons t ts =>
    rw [name]
    split
    · next n' h =>
      rw [gives_ok_iff]
      simp [h, and_assoc, and_comm]
    · next h =>
      rw [gives_error_iff]
      simpa using fun _ => h n

theorem gives_quoted_iff {what : Expectation} {text : String} :
    Gives (quoted what ts) text rest ↔ ∃ t, ts = t :: rest ∧ t.kind = .text text := by
  cases ts with
  | nil => simp [quoted, gives_error_iff]
  | cons t ts =>
    rw [quoted]
    split
    · next text' h =>
      rw [gives_ok_iff]
      simp [h, and_assoc, and_comm]
    · next h =>
      rw [gives_error_iff]
      simpa using fun _ => h text

end SchemaContract.Grammar

/-- The token that a key is. -/
def SchemaContract.Key.token : Key → Token.Kind
  | identifier name => .name name
  | quoted text => .text text

theorem SchemaContract.Key.token_ne_mark (k : Key) (m : Mark) : k.token ≠ .mark m := by
  cases k <;> simp [token]

namespace SchemaContract.Grammar

variable {ts rest : List Token}

theorem gives_key_iff {what : Expectation} {k : Key} :
    Gives (key what ts) k rest ↔ ∃ t, ts = t :: rest ∧ t.kind = k.token := by
  cases ts with
  | nil => simp [key, gives_error_iff]
  | cons t ts =>
    rw [key]
    split
    · next n h => cases k <;> simp [h, gives_ok_iff, Key.token, and_assoc, and_comm]
    · next s h => cases k <;> simp [h, gives_ok_iff, Key.token, and_assoc, and_comm]
    · next hn ht =>
      rw [gives_error_iff]
      cases k with
      | identifier n => simpa [Key.token] using fun _ => hn n
      | quoted s => simpa [Key.token] using fun _ => ht s

theorem gives_separator_iff {close : Mark} {what : Expectation} {u : Unit} :
    Gives (separator close what ts) u rest ↔
      ∃ t us, ts = t :: us ∧
        ((t.kind = .mark .semicolon ∨ t.kind = .mark .comma) ∧ us = rest ∨
          ¬ (t.kind = .mark .semicolon ∨ t.kind = .mark .comma) ∧ t.kind = .mark close ∧
            ts = rest) := by
  cases ts with
  | nil => simp [separator, gives_error_iff]
  | cons t ts =>
    rw [separator]
    split
    · next h => rcases h with h | h <;> simp [h, gives_ok_iff, and_assoc]
    · next h =>
      split
      · next hc => simp_all [gives_ok_iff, and_assoc]
      · next hc => simp_all [gives_error_iff, and_assoc]

-- A rule that looks for a mark first has one equivalence for where the mark is there and one for
-- where it is not.
theorem gives_expression_iff {e : Expression} :
    Gives (expression ts) e rest ↔
      ∃ first mid, Gives (intersection (optionalMark .pipe ts).rest) first mid ∧
        ∃ others, Gives (unionOptions mid) others rest ∧ unionOf first others = e := by
  rw [expression]
  simp only [gives_bind_iff, gives_ok_iff, Found.behind, Found.widen, exists_and_right, ← gives_def]
  grind

theorem gives_unionOptions_of_none {es : List Expression} (h : mark? .pipe ts = none) :
    Gives (unionOptions ts) es rest ↔ [] = es ∧ ts = rest := by
  rw [unionOptions, h]
  exact gives_ok_iff

theorem gives_unionOptions_cons {es : List Expression} {t : Token} (h : t.kind = .mark .pipe) :
    Gives (unionOptions (t :: ts)) es rest ↔
      ∃ option mid, Gives (intersection ts) option mid ∧
        ∃ others, Gives (unionOptions mid) others rest ∧ option :: others = es := by
  rw [unionOptions, mark?_cons_of_eq h]
  simp only [gives_bind_iff, gives_ok_iff, Found.before, Found.after, Found.widen, Found.lax,
    exists_and_right, ← gives_def]
  grind

theorem gives_intersection_iff {e : Expression} :
    Gives (intersection ts) e rest ↔
      ∃ first mid, Gives (operand ts) first mid ∧
        ∃ others, Gives (intersectionOptions mid) others rest ∧
          intersectionOf first others = e := by
  rw [intersection]
  simp only [gives_bind_iff, gives_ok_iff, Found.widen, exists_and_right, ← gives_def]
  grind

theorem gives_intersectionOptions_of_none {es : List Expression}
    (h : mark? .ampersand ts = none) :
    Gives (intersectionOptions ts) es rest ↔ [] = es ∧ ts = rest := by
  rw [intersectionOptions, h]
  exact gives_ok_iff

theorem gives_intersectionOptions_cons {es : List Expression} {t : Token}
    (h : t.kind = .mark .ampersand) :
    Gives (intersectionOptions (t :: ts)) es rest ↔
      ∃ option mid, Gives (operand ts) option mid ∧
        ∃ others, Gives (intersectionOptions mid) others rest ∧ option :: others = es := by
  rw [intersectionOptions, mark?_cons_of_eq h]
  simp only [gives_bind_iff, gives_ok_iff, Found.before, Found.after, Found.widen, Found.lax,
    exists_and_right, ← gives_def]
  grind

theorem gives_operand_iff {e : Expression} :
    Gives (operand ts) e rest ↔
      ∃ element mid, Gives (primary ts) element mid ∧
        (arrayBrackets element mid).value = e ∧ (arrayBrackets element mid).rest = rest := by
  rw [operand]
  exact gives_bind_iff_of fun element mid h => gives_ok_iff

theorem not_gives_primary_nil {e : Expression} : ¬ Gives (primary []) e rest := by
  rw [primary]
  exact not_gives_error

theorem gives_primary_number_iff {e : Expression} {t : Token} {value : Binary64}
    (h : t.kind = .number value) :
    Gives (primary (t :: ts)) e rest ↔ .number value = e ∧ ts = rest := by
  rw [primary, h]
  exact gives_ok_iff

theorem gives_primary_text_iff {e : Expression} {t : Token} {value : String}
    (h : t.kind = .text value) :
    Gives (primary (t :: ts)) e rest ↔ .text value = e ∧ ts = rest := by
  rw [primary, h]
  exact gives_ok_iff

theorem gives_primary_truth_iff {e : Expression} {t : Token} {value : Bool}
    (h : t.kind = .truth value) :
    Gives (primary (t :: ts)) e rest ↔ .boolean value = e ∧ ts = rest := by
  rw [primary, h]
  exact gives_ok_iff

theorem gives_primary_name_iff {e : Expression} {t : Token} {n : String}
    (h : t.kind = .name n) :
    Gives (primary (t :: ts)) e rest ↔ Gives (named n ts) e rest := by
  rw [primary, h]

theorem gives_primary_tuple_iff {e : Expression} {t : Token}
    (h : t.kind = .mark .leftBracket) :
    Gives (primary (t :: ts)) e rest ↔
      ∃ elements, Gives (listing .rightBracket .tupleEnd ts) elements rest ∧
        .tuple elements = e := by
  rw [primary, h]
  simp only [gives_bind_iff, gives_ok_iff, Found.map, Found.lax, exists_and_right, ← gives_def]
  grind

theorem gives_primary_model_iff {e : Expression} {t : Token}
    (h : t.kind = .mark .leftBrace) :
    Gives (primary (t :: ts)) e rest ↔
      ∃ ms, Gives (members .body ts) ms rest ∧ .model ms = e := by
  rw [primary, h]
  simp only [gives_bind_iff, gives_ok_iff, Found.map, Found.lax, exists_and_right, ← gives_def]
  grind

theorem gives_primary_group_iff {e : Expression} {t : Token}
    (h : t.kind = .mark .leftParen) :
    Gives (primary (t :: ts)) e rest ↔
      ∃ u, Gives (expression ts) e (u :: rest) ∧ u.kind = .mark .rightParen := by
  rw [primary, h]
  simp only [gives_bind_iff, gives_ok_iff, Found.map, Found.after, Found.lax, exists_and_right,
    ← gives_def, gives_mark_iff]
  grind

theorem not_gives_primary_mark {e : Expression} {t : Token} {m : Mark} (h : t.kind = .mark m)
    (hm : m ∉ [.leftBracket, .leftBrace, .leftParen]) : ¬ Gives (primary (t :: ts)) e rest := by
  rw [primary, h]
  cases m <;> simp_all [gives_error_iff]

theorem gives_listing_cons {close : Mark} {what : Expectation} {es : List Expression} {t : Token}
    (h : t.kind = .mark close) :
    Gives (listing close what (t :: ts)) es rest ↔ [] = es ∧ ts = rest := by
  rw [listing, mark?_cons_of_eq h]
  exact gives_ok_iff

theorem gives_listing_of_none {close : Mark} {what : Expectation} {es : List Expression}
    (h : mark? close ts = none) :
    Gives (listing close what ts) es rest ↔ Gives (items close what ts) es rest := by
  rw [listing, h]

theorem gives_items_iff {close : Mark} {what : Expectation} {es : List Expression} :
    Gives (items close what ts) es rest ↔
      ∃ item mid, Gives (expression ts) item mid ∧
        ((∃ t us, mid = t :: us ∧ t.kind = .mark .comma ∧
            ∃ others, Gives (items close what us) others rest ∧ item :: others = es) ∨
          mark? .comma mid = none ∧ [item] = es ∧ ∃ t, mid = t :: rest ∧ t.kind = .mark close) := by
  rw [items]
  refine gives_bind_iff_of fun item mid h => ?_
  rcases mark?_cases .comma mid with hc | ⟨t, us, rfl, ht⟩
  · simp only [hc, gives_bind_iff, gives_ok_iff, Found.map, Found.after, exists_and_right,
      ← gives_def, gives_mark_iff]
    grind [mark?_cons_of_eq]
  · simp only [mark?_cons_of_eq ht, gives_bind_iff, gives_ok_iff, Found.map, Found.after,
      Found.before, exists_and_right, ← gives_def]
    grind

theorem gives_members_cons {place : MemberList} {ms : List Member} {t : Token}
    (h : t.kind = .mark place.close) :
    Gives (members place (t :: ts)) ms rest ↔ [] = ms ∧ ts = rest := by
  rw [members, mark?_cons_of_eq h]
  exact gives_ok_iff

theorem gives_members_of_none {place : MemberList} {ms : List Member}
    (h : mark? place.close ts = none) :
    Gives (members place ts) ms rest ↔
      ∃ ds ts₁, Gives (decorators ts) ds ts₁ ∧
        ∃ first ts₂, Gives (member ds ts₁) first ts₂ ∧
          ∃ ts₃, Gives (separator place.close place.separator ts₂) () ts₃ ∧
            ∃ others, Gives (members place ts₃) others rest ∧ first :: others = ms := by
  rw [members, h]
  simp only [gives_bind_iff, gives_ok_iff, Found.behind, Found.after, Found.widen,
    exists_and_right, ← gives_def]
  grind

theorem gives_member_cons {ds : List Decorator} {m : Member} {t : Token}
    (h : t.kind = .mark .ellipsis) :
    Gives (member ds (t :: ts)) m rest ↔
      ∃ target, Gives (expression ts) target rest ∧ .spread target = m := by
  rw [member, mark?_cons_of_eq h]
  simp only [gives_bind_iff, gives_ok_iff, Found.before, Found.after, exists_and_right,
    ← gives_def]
  grind

theorem gives_member_of_none {ds : List Decorator} {m : Member} (h : mark? .ellipsis ts = none) :
    Gives (member ds ts) m rest ↔
      ∃ k ts₁, Gives (key .propertyName ts) k ts₁ ∧
        ∃ u ts₂, (optionalMark .question ts₁).rest = u :: ts₂ ∧ u.kind = .mark .colon ∧
          ∃ type ts₃, Gives (expression ts₂) type ts₃ ∧
            ∃ default?, Gives (default ts₃) default? rest ∧
              .property ⟨k, type, (optionalMark .question ts₁).value, default?, ds⟩ = m := by
  rw [member, h]
  simp only [gives_bind_iff, gives_ok_iff, Found.after, Found.widen, exists_and_right,
    ← gives_def, gives_mark_iff]
  grind

theorem gives_default_of_none {default? : Option Expression} (h : mark? .equals ts = none) :
    Gives (default ts) default? rest ↔ none = default? ∧ ts = rest := by
  rw [default, h]
  exact gives_ok_iff

theorem gives_default_cons {default? : Option Expression} {t : Token}
    (h : t.kind = .mark .equals) :
    Gives (default (t :: ts)) default? rest ↔
      ∃ value, Gives (expression ts) value rest ∧ some value = default? := by
  rw [default, mark?_cons_of_eq h]
  simp only [gives_bind_iff, gives_ok_iff, Found.before, Found.map, Found.after, Found.lax,
    exists_and_right, ← gives_def]
  grind

theorem gives_decorators_of_none {ds : List Decorator} (h : mark? .atSign ts = none) :
    Gives (decorators ts) ds rest ↔ [] = ds ∧ ts = rest := by
  rw [decorators, h]
  exact gives_ok_iff

theorem gives_decorators_cons {ds : List Decorator} {t : Token} (h : t.kind = .mark .atSign) :
    Gives (decorators (t :: ts)) ds rest ↔
      ∃ target ts₁, Gives (dottedName ts) target ts₁ ∧
        ∃ es ts₂, Gives (arguments ts₁) es ts₂ ∧
          ∃ others, Gives (decorators ts₂) others rest ∧ ⟨target, es⟩ :: others = ds := by
  rw [decorators, mark?_cons_of_eq h]
  simp only [gives_bind_iff, gives_ok_iff, Found.before, Found.after, Found.widen, Found.lax,
    exists_and_right, ← gives_def]
  grind

theorem gives_arguments_of_none {es : List Expression} (h : mark? .leftParen ts = none) :
    Gives (arguments ts) es rest ↔ [] = es ∧ ts = rest := by
  rw [arguments, h]
  exact gives_ok_iff

theorem gives_arguments_cons {es : List Expression} {t : Token} (h : t.kind = .mark .leftParen) :
    Gives (arguments (t :: ts)) es rest ↔
      Gives (listing .rightParen .argumentsEnd ts) es rest := by
  rw [arguments, mark?_cons_of_eq h]
  simp only [gives_bind_iff, gives_ok_iff, Found.before, Found.after, Found.lax,
    exists_and_right, ← gives_def]
  grind

end SchemaContract.Grammar
