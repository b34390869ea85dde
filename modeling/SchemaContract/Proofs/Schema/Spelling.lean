import SchemaContract.Proofs.Schema.Gaps

/-!
Spelling tokens. Every token is cut off a text again as what it is spelled for, if no name and no
number goes on behind it. A text in quotes may hold anything, as long as the quotes and backslashes
in it are escaped. So the tokens of a text that is made of spellings with gaps between them are
those that are spelled.
-/
namespace SchemaContract

namespace Lexeme

/-- A digit or a minus sign, and behind it digits with at most one point. There is a digit. -/
def IsNumeral : List Char → Prop
  | [] => False
  | c :: cs => (c.isDigit = true ∨ c = '-') ∧ IsDecimal cs ∧ ∃ d ∈ c :: cs, d.isDigit = true

/-- The inside of a quoted text, and the text that is meant. Quotes and backslashes are escaped, and
the characters that have a letter may be. -/
inductive Escaped : List Char → List Char → Prop
  | nil : Escaped [] []
  | plain {c : Char} {inside text : List Char} (hq : c ≠ '"') (hb : c ≠ '\\')
      (h : Escaped inside text) : Escaped (c :: inside) (c :: text)
  | escape {c d : Char} {inside text : List Char} (hc : (c, d) ∈ escapes)
      (h : Escaped inside text) : Escaped ('\\' :: c :: inside) (d :: text)

/-- A character as it is written inside quotes. With `letters`, no newline, tabulator or carriage
return stands there itself. -/
def guarded (letters : Bool) (c : Char) : List Char :=
  if c = '"' ∨ c = '\\' then ['\\', c]
  else if letters then
    match c with
    | '\n' => ['\\', 'n']
    | '\t' => ['\\', 't']
    | '\r' => ['\\', 'r']
    | c => [c]
  else [c]

def quote (letters : Bool) (text : List Char) : List Char :=
  '"' :: (text.flatMap (guarded letters) ++ ['"'])

end Lexeme

open Lexeme

/-- How a token may be spelled. -/
inductive Token.Kind.WrittenAs : Token.Kind → List Char → Prop
  | number {numeral : List Char} {value : Binary64} (h : IsNumeral numeral)
      (hvalue : Binary64.ofSpelling? numeral = some value) : WrittenAs (.number value) numeral
  | text {inside text : List Char} (h : Escaped inside text) :
      WrittenAs (.text (String.ofList text)) ('"' :: (inside ++ ['"']))
  | isTrue : WrittenAs (.truth true) ['t', 'r', 'u', 'e']
  | isFalse : WrittenAs (.truth false) ['f', 'a', 'l', 's', 'e']
  | name {name : String} (h : IsName name.toList) (htrue : name ≠ "true")
      (hfalse : name ≠ "false") : WrittenAs (.name name) name.toList
  | mark (m : Mark) : WrittenAs (.mark m) m.spelling

inductive Spaced : List Token.Kind → List Char → Prop
  | nil : Spaced [] []
  | last {kind : Token.Kind} {word : List Char} (h : kind.WrittenAs word) : Spaced [kind] word
  | cons {kind : Token.Kind} {kinds : List Token.Kind} {word gap text : List Char}
      (h : kind.WrittenAs word) (hgap : IsGap gap) (hne : gap ≠ []) (hrest : Spaced kinds text) :
      Spaced (kind :: kinds) (word ++ gap ++ text)

namespace Lexeme

theorem Escaped.quoted {inside text : List Char} (h : Escaped inside text) :
    Quoted inside text := by
  induction h with
  | nil => exact .nil
  | plain hq hb _ ih => exact .plain hq hb ih
  | escape hc _ ih => exact .escape hc ih

theorem Escaped.guarded_append {inside text : List Char} (letters : Bool) (c : Char)
    (h : Escaped inside text) : Escaped (guarded letters c ++ inside) (c :: text) := by
  unfold guarded
  split
  · next hc =>
    rcases hc with rfl | rfl <;> exact .escape (by decide) h
  next hc =>
  obtain ⟨hq, hb⟩ := not_or.1 hc
  split
  · split
    · exact .escape (by decide) h
    · exact .escape (by decide) h
    · exact .escape (by decide) h
    · exact .plain hq hb h
  · exact .plain hq hb h

theorem escaped_flatMap (letters : Bool) (text : List Char) :
    Escaped (text.flatMap (guarded letters)) text := by
  induction text with
  | nil => exact .nil
  | cons c text ih => exact ih.guarded_append letters c

theorem ofName_toList {name : String} (htrue : name ≠ "true") (hfalse : name ≠ "false") :
    ofName name.toList = .name name := by
  unfold ofName
  rw [String.ofList_toList]
  split
  · exact absurd rfl htrue
  · exact absurd rfl hfalse
  · rfl

theorem exists_ofUnsignedSpelling? (negative : Bool) {cs : List Char}
    (h : cs.takeWhile Char.isDigit ≠ [] ∨ (cs.dropWhile Char.isDigit).drop 1 ≠ []) :
    ∃ value, Binary64.ofUnsignedSpelling? negative cs = some value := by
  unfold Binary64.ofUnsignedSpelling?
  dsimp only
  rw [if_neg (not_and_or.2 h)]
  exact ⟨_, rfl⟩

theorem IsNumeral.exists_value {numeral : List Char} (h : IsNumeral numeral) :
    ∃ value, Binary64.ofSpelling? numeral = some value := by
  cases numeral with
  | nil => exact h.elim
  | cons c digits =>
    obtain ⟨hc, ⟨whole, hwhole, hdigits⟩, d, hd, hdigit⟩ := h
    rcases hc with hc | rfl
    · have hne : ∀ cs, c :: digits = '-' :: cs → False := by
        rintro cs he
        cases he
        cases hc
      rw [Binary64.ofSpelling?.eq_2 _ hne]
      apply exists_ofUnsignedSpelling?
      left
      rw [List.takeWhile_cons_of_pos hc]
      exact List.cons_ne_nil _ _
    · rw [Binary64.ofSpelling?]
      apply exists_ofUnsignedSpelling?
      replace hd : d ∈ digits := by
        rcases List.mem_cons.1 hd with rfl | hd
        · cases hdigit
        · exact hd
      cases whole with
      | cons e whole =>
        left
        have he : digits.takeWhile Char.isDigit =
            e :: (digits.drop 1).takeWhile Char.isDigit := by
          rcases hdigits with rfl | ⟨fraction, -, rfl⟩ <;>
            exact List.takeWhile_cons_of_pos (hwhole e List.mem_cons_self)
        rw [he]
        exact List.cons_ne_nil _ _
      | nil =>
        right
        rcases hdigits with rfl | ⟨fraction, -, rfl⟩
        · cases hd
        · rcases List.mem_cons.1 hd with rfl | hd
          · cases hdigit
          · exact List.ne_nil_of_mem hd

end Lexeme

/-- A spelling stands in front of everything that goes on with no name and no number. -/
theorem Token.Kind.WrittenAs.stands {kind : Token.Kind} {word rest : List Char}
    (h : kind.WrittenAs word) (hrest : ∀ c ∈ rest.head?, isNameRest c = false ∧ c ≠ '.') :
    Lexeme.Stands ⟨word, some kind⟩ rest := by
  have hname : ∀ c ∈ rest.head?, isNameRest c = false := fun c hc => (hrest c hc).1
  cases h with
  | number h hvalue =>
    cases word with
    | nil => exact h.elim
    | cons c digits =>
      obtain ⟨hc, hdigits, -⟩ := h
      refine .number hc hdigits (fun d hd => ⟨?_, fun he => absurd he (hrest d hd).2⟩) hvalue
      apply Bool.eq_false_iff.2
      intro hdigit
      have hfalse := hname d hd
      rw [isNameRest_of_isDigit hdigit] at hfalse
      cases hfalse
  | text h => exact .text h.quoted
  | isTrue =>
    have h : IsName ['t', 'r', 'u', 'e'] := ⟨rfl, List.all_eq_true.1 rfl⟩
    exact .name h hname
  | isFalse =>
    have h : IsName ['f', 'a', 'l', 's', 'e'] := ⟨rfl, List.all_eq_true.1 rfl⟩
    exact .name h hname
  | name h htrue hfalse =>
    rw [← ofName_toList htrue hfalse]
    exact .name h hname
  | mark m =>
    cases m with
    | dot => exact .dot fun c hc => (hrest c hc).2
    | ellipsis => exact .ellipsis
    | _ => exact .mark rfl

namespace Lexeme

theorem map_kind_tokensFrom (offset : Nat) (ps : List Lexeme) :
    (tokensFrom offset ps).map Token.kind = ps.filterMap kind? := by
  induction ps generalizing offset with
  | nil => rfl
  | cons p ps ih =>
    rw [tokensFrom, List.map_append, ih]
    unfold tokens
    cases h : p.kind? with
    | none => rw [List.filterMap_cons_none h]; rfl
    | some kind => rw [List.filterMap_cons_some h]; rfl

end Lexeme

theorem Spaced.exists_pieces {kinds : List Token.Kind} {text : List Char} (h : Spaced kinds text) :
    ∃ ps, spellings ps = text ∧ AllStand ps [] ∧ ps.filterMap Lexeme.kind? = kinds := by
  induction h with
  | nil => exact ⟨[], rfl, trivial, rfl⟩
  | @last kind word h =>
    exact ⟨[⟨word, some kind⟩], List.append_nil word, ⟨h.stands nofun, trivial⟩, rfl⟩
  | @cons kind kinds word gap text h hgap hne _ ih =>
    obtain ⟨ps, rfl, hstand, rfl⟩ := ih
    obtain ⟨ms, rfl, hms, hmstand⟩ := hgap.exists_allStand
    have hfirst : Lexeme.Stands ⟨word, some kind⟩ (spellings (ms ++ ps) ++ []) := by
      apply h.stands
      intro c hc
      apply hgap.outside
      rw [List.append_nil, spellings_append, List.head?_append_of_ne_nil _ hne] at hc
      exact hc
    refine ⟨⟨word, some kind⟩ :: (ms ++ ps), ?_, ?_, ?_⟩
    · rw [spellings_cons, spellings_append, List.append_assoc]
    · exact ⟨hfirst, allStand_append.2 ⟨hmstand _, hstand⟩⟩
    · have hnone : ms.filterMap Lexeme.kind? = [] := List.filterMap_eq_nil_iff.2 hms
      rw [List.filterMap_cons, List.filterMap_append, hnone, List.nil_append]

/-- The tokens of spellings with gaps between them are those that are spelled. Every numeral spells
a number, and every text can be spelled, in either way. -/
theorem Tokens.ofText_spaced :
    (∀ kinds text, Spaced kinds text →
      ∃ ts, Tokens.ofText text = .ok ⟨ts, Text.byteLength text⟩ ∧ ts.map Token.kind = kinds) ∧
    (∀ numeral, IsNumeral numeral → ∃ value, (Token.Kind.number value).WrittenAs numeral) ∧
    ∀ (letters : Bool) (value : String),
      (Token.Kind.text value).WrittenAs (quote letters value.toList) := by
  refine ⟨?_, ?_, ?_⟩
  · intro kinds text h
    obtain ⟨ps, rfl, hstand, rfl⟩ := h.exists_pieces
    exact ⟨tokensFrom 0 ps, Tokens.ofText_eq_ok_iff.2 ⟨ps, rfl, hstand, rfl⟩,
      map_kind_tokensFrom 0 ps⟩
  · intro numeral h
    obtain ⟨value, hvalue⟩ := h.exists_value
    exact ⟨value, .number h hvalue⟩
  · intro letters value
    have h := Token.Kind.WrittenAs.text (escaped_flatMap letters value.toList)
    rwa [String.ofList_toList] at h

theorem Tokens.ofText_spaced_quoted :
    let kinds : List Token.Kind :=
      [.name "truest", .text "\"/*\n\\", .number ⟨0xBFF8000000000000⟩, .mark .dot, .truth true]
    let text : List Char := "truest\t\"\\\"/*\n\\\\\"/**/-1.5 . true".toList
    Spaced kinds text ∧
      ∃ ts, Tokens.ofText text = .ok ⟨ts, Text.byteLength text⟩ ∧ ts.map Token.kind = kinds := by
  intro kinds text
  have hname : (Token.Kind.name "truest").WrittenAs "truest".toList := by
    refine .name ?_ (by decide) (by decide)
    have hlist : "truest".toList = ['t', 'r', 'u', 'e', 's', 't'] := by cbv
    rw [hlist]
    exact ⟨rfl, List.all_eq_true.1 rfl⟩
  have hquoted : (Token.Kind.text "\"/*\n\\").WrittenAs
      ('"' :: (['\\', '"', '/', '*', '\n', '\\', '\\'] ++ ['"'])) := by
    have h : Escaped ['\\', '"', '/', '*', '\n', '\\', '\\'] ['"', '/', '*', '\n', '\\'] :=
      .escape (by decide) (.plain (by decide) (by decide) (.plain (by decide) (by decide)
        (.plain (by decide) (by decide) (.escape (by decide) .nil))))
    exact .text h
  have hnumber : (Token.Kind.number ⟨0xBFF8000000000000⟩).WrittenAs ['-', '1', '.', '5'] := by
    have hdecimal : IsDecimal ['1', '.', '5'] :=
      ⟨['1'], List.all_eq_true.1 rfl, .inr ⟨['5'], List.all_eq_true.1 rfl, rfl⟩⟩
    exact .number ⟨.inr rfl, hdecimal, '1', by decide, rfl⟩ (by decide +kernel)
  have hblank {c : Char} (hc : Text.isBlank c = true) : IsGap [c] := .blank hc .nil
  have hcomment : IsGap ['/', '*', '*', '/'] :=
    IsGap.blockComment (show ¬ ['*', '/'] <:+: [] by decide) .nil
  have h : Spaced kinds text :=
    .cons hname (hblank (show Text.isBlank '\t' = true from rfl)) (by decide)
      (.cons hquoted hcomment (by decide)
        (.cons hnumber (hblank (show Text.isBlank ' ' = true from rfl)) (by decide)
          (.cons (.mark .dot) (hblank (show Text.isBlank ' ' = true from rfl)) (by decide)
            (.last .isTrue))))
  exact ⟨h, Tokens.ofText_spaced.1 kinds text h⟩

end SchemaContract
