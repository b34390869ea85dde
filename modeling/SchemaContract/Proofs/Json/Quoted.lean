import SchemaContract.Proofs.Json.Gives

/-!
Quoted texts of JSON. What reads them stops where a scan for the next quote that is not behind a
backslash stops, and what is written by escaping a text is read as that text.
-/
namespace SchemaContract.Json

open Found (Gives gives_def gives_ok_iff not_gives_error gives_error_iff gives_bind_iff
  gives_bind_iff_of)

variable {cs rest : List Char}

/-- The text behind the closing quote: the first one that is not behind a backslash. -/
def behindQuoted : List Char → List Char
  | [] | ['\\'] => []
  | '"' :: cs => cs
  | '\\' :: _ :: cs => behindQuoted cs
  | _ :: cs => behindQuoted cs

theorem behindQuoted_of_ne {c : Char} (hq : c ≠ '"') (hb : c ≠ '\\') :
    behindQuoted (c :: cs) = behindQuoted cs :=
  behindQuoted.eq_5 c cs (fun he _ => hb he) hq fun _ _ he _ => hb he

theorem length_behindQuoted_le (cs : List Char) : (behindQuoted cs).length ≤ cs.length := by
  fun_induction behindQuoted cs <;> simp only [List.length_cons, List.length_nil] <;> omega

theorem gives_hexUnit_iff {unit : Nat} :
    Gives (hexUnit cs) unit rest ↔
      ∃ a b c d, cs = a :: b :: c :: d :: rest ∧
        ∃ w x y z, hexValue? a = some w ∧ hexValue? b = some x ∧ hexValue? c = some y ∧
          hexValue? d = some z ∧ ((w * 16 + x) * 16 + y) * 16 + z = unit := by
  have hpos (c : Char) : 1 ≤ c.utf8Size := Char.utf8Size_pos c
  unfold hexUnit
  split
  · next hshort =>
    rw [gives_error_iff, false_iff]
    rintro ⟨a, b, c, d, rfl, _⟩
    simp only [Text.byteLength_cons] at hshort
    have ha := hpos a
    have hb := hpos b
    have hc := hpos c
    have hd := hpos d
    omega
  · split
    · next a b c d mid _ =>
      split
      · next w x y z ha hb hc hd =>
        constructor
        · intro h
          obtain ⟨rfl, rfl⟩ := gives_ok_iff.1 h
          exact ⟨a, b, c, d, rfl, w, x, y, z, ha, hb, hc, hd, rfl⟩
        · rintro ⟨_, _, _, _, he, w', x', y', z', ha', hb', hc', hd', rfl⟩
          cases he
          cases ha.symm.trans ha'
          cases hb.symm.trans hb'
          cases hc.symm.trans hc'
          cases hd.symm.trans hd'
          exact gives_ok_iff.2 ⟨rfl, rfl⟩
      · next hne =>
        rw [gives_error_iff, false_iff]
        rintro ⟨_, _, _, _, he, w, x, y, z, ha, hb, hc, hd, _⟩
        cases he
        exact hne w x y z ha hb hc hd
    · next hne =>
      rw [gives_error_iff, false_iff]
      rintro ⟨a, b, c, d, he, _⟩
      exact hne a b c d rest he

theorem gives_trailingUnit_iff {unit : Nat} :
    Gives (trailingUnit cs) unit rest ↔
      ∃ us, cs = '\\' :: 'u' :: us ∧ Gives (hexUnit us) unit rest ∧ isTrailing unit = true := by
  unfold trailingUnit
  split
  · next us =>
    have hbehind (v : Nat) (mid : List Char) (h : mid.length < us.length) :
        Gives (if isTrailing v = true
            then .ok (Found.mk v mid h).lax.lax
            else .error (Fault.behind .loneSurrogate mid)) unit rest ↔
          isTrailing v = true ∧ v = unit ∧ mid = rest := by
      split <;> simp_all [gives_ok_iff, gives_error_iff]
    rw [gives_bind_iff_of hbehind]
    constructor
    · rintro ⟨_, _, h, ht, rfl, rfl⟩
      exact ⟨us, rfl, h, ht⟩
    · rintro ⟨_, he, h, ht⟩
      cases he
      exact ⟨_, _, h, ht, rfl, rfl⟩
  all_goals simp_all [gives_error_iff]

theorem gives_hexChar_iff {e : Char} :
    Gives (hexChar cs) e rest ↔
      ∃ unit mid, Gives (hexUnit cs) unit mid ∧ isTrailing unit = false ∧
        (isLeading unit = false ∧ Char.ofNat unit = e ∧ mid = rest ∨
          isLeading unit = true ∧
            ∃ second, Gives (trailingUnit mid) second rest ∧ pairChar unit second = e) := by
  unfold hexChar
  refine gives_bind_iff_of fun unit mid h => ?_
  dsimp only
  -- a trailing surrogate alone, a leading one that needs its pair, any other unit
  split
  · next ht => simp [gives_error_iff, ht]
  split
  · next ht hl =>
    simp [ht, hl, gives_bind_iff, gives_ok_iff, Found.after, ← gives_def]
  · next ht hl =>
    simp [ht, hl, gives_ok_iff]

theorem gives_escapedChar_iff {c e : Char} :
    Gives (escapedChar (c :: cs)) e rest ↔
      c = 'u' ∧ Gives (hexChar cs) e rest ∨
        c ≠ 'u' ∧ shortEscape? c = some e ∧ cs = rest := by
  rw [escapedChar]
  split
  · next hc =>
    simp [hc, gives_bind_iff, gives_ok_iff, Found.lax, ← gives_def]
  · next hc =>
    cases he : shortEscape? c <;> simp [hc, gives_ok_iff, gives_error_iff]

theorem not_gives_escapedChar_nil {e : Char} : ¬ Gives (escapedChar []) e rest :=
  not_gives_error

theorem not_gives_quotedChars_nil {chars : List Char} : ¬ Gives (quotedChars []) chars rest := by
  rw [quotedChars]
  exact not_gives_error

theorem gives_quotedChars_iff {c : Char} {chars : List Char} :
    Gives (quotedChars (c :: cs)) chars rest ↔
      c = '"' ∧ [] = chars ∧ cs = rest ∨
      c = '\\' ∧ (∃ e mid, Gives (escapedChar cs) e mid ∧
        ∃ others, Gives (quotedChars mid) others rest ∧ e :: others = chars) ∨
      c ≠ '"' ∧ c ≠ '\\' ∧ 0x20 ≤ c.toNat ∧
        ∃ others, Gives (quotedChars cs) others rest ∧ c :: others = chars := by
  rw [quotedChars]
  split
  · next hc =>
    simp [hc, gives_ok_iff]
  split
  · next hc =>
    simp [hc, gives_bind_iff, gives_ok_iff, Found.lax, Found.after, ← gives_def]
  split
  · next hq hb hc =>
    simp [hq, hb, gives_error_iff]
    omega
  · next hq hb hc =>
    simp [hq, hb, gives_bind_iff, gives_ok_iff, Found.lax, Found.map, ← gives_def]
    intro _ _ _
    omega

-- Hexadecimal digits are neither quotes nor backslashes, so the scan passes over them.
theorem ne_of_hexValue? {c : Char} {v : Nat} (h : hexValue? c = some v) : c ≠ '"' ∧ c ≠ '\\' := by
  constructor <;> rintro rfl <;> cases h

theorem behindQuoted_of_hexUnit {unit : Nat} (h : Gives (hexUnit cs) unit rest) :
    behindQuoted cs = behindQuoted rest := by
  obtain ⟨a, b, c, d, rfl, w, x, y, z, ha, hb, hc, hd, _⟩ := gives_hexUnit_iff.1 h
  have hplain {e : Char} {v : Nat} (he : hexValue? e = some v) (es : List Char) :
      behindQuoted (e :: es) = behindQuoted es :=
    behindQuoted_of_ne (ne_of_hexValue? he).1 (ne_of_hexValue? he).2
  rw [hplain ha, hplain hb, hplain hc, hplain hd]

theorem behindQuoted_of_hexChar {e : Char} (h : Gives (hexChar cs) e rest) :
    behindQuoted cs = behindQuoted rest := by
  obtain ⟨unit, mid, h₁, _, ⟨_, _, rfl⟩ | ⟨_, second, h₂, _⟩⟩ := gives_hexChar_iff.1 h
  · exact behindQuoted_of_hexUnit h₁
  · obtain ⟨us, rfl, h₃, _⟩ := gives_trailingUnit_iff.1 h₂
    rw [behindQuoted_of_hexUnit h₁, behindQuoted, behindQuoted_of_hexUnit h₃]

theorem behindQuoted_of_escapedChar {e : Char} (h : Gives (escapedChar cs) e rest) :
    behindQuoted ('\\' :: cs) = behindQuoted rest := by
  cases cs with
  | nil => exact absurd h not_gives_escapedChar_nil
  | cons c cs =>
    -- the scan passes over the character behind the backslash, whatever it is
    rw [behindQuoted]
    rcases gives_escapedChar_iff.1 h with ⟨_, h⟩ | ⟨_, _, rfl⟩
    · exact behindQuoted_of_hexChar h
    · rfl

/-- The rest of a quoted text is what a scan for its closing quote leaves. -/
theorem behindQuoted_of_quotedChars {chars : List Char} (h : Gives (quotedChars cs) chars rest) :
    behindQuoted cs = rest := by
  -- on the characters that are left, since an escape takes several at once
  induction hn : cs.length using Nat.strongRecOn generalizing cs chars with
  | _ n ih =>
    subst hn
    cases cs with
    | nil => exact absurd h not_gives_quotedChars_nil
    | cons c cs =>
      rcases gives_quotedChars_iff.1 h with ⟨rfl, _, rfl⟩ | ⟨rfl, e, mid, he, others, h, _⟩ |
        ⟨hq, hb, _, others, h, _⟩
      · rfl
      · have hlt : mid.length < ('\\' :: cs).length := Nat.lt_succ_of_lt he.length_lt
        rw [behindQuoted_of_escapedChar he, ih _ hlt h rfl]
      · rw [behindQuoted_of_ne hq hb, ih _ (Nat.lt_succ_self _) h rfl]

theorem hexValue?_digitChar : ∀ n < 16, hexValue? (Nat.digitChar n) = some n := by decide

/-- A character below the space that has no escape of its own is escaped by its number. -/
theorem gives_escapedChar_control {c : Char} (hc : c.toNat < 0x20) :
    Gives (escapedChar ('u' :: '0' :: '0' :: Nat.digitChar (c.toNat / 16) ::
      Nat.digitChar (c.toNat % 16) :: rest)) c rest := by
  have hunit : Gives (hexUnit ('0' :: '0' :: Nat.digitChar (c.toNat / 16) ::
      Nat.digitChar (c.toNat % 16) :: rest)) c.toNat rest := by
    refine gives_hexUnit_iff.2 ⟨_, _, _, _, rfl, 0, 0, c.toNat / 16, c.toNat % 16, rfl, rfl,
      hexValue?_digitChar _ (by omega), hexValue?_digitChar _ (by omega), by omega⟩
  have hleading : isLeading c.toNat = false := by
    simp only [isLeading, Bool.and_eq_false_iff, decide_eq_false_iff_not]
    omega
  have htrailing : isTrailing c.toNat = false := by
    simp only [isTrailing, Bool.and_eq_false_iff, decide_eq_false_iff_not]
    omega
  refine gives_escapedChar_iff.2 (.inl ⟨rfl, gives_hexChar_iff.2 ?_⟩)
  exact ⟨_, _, hunit, htrailing, .inl ⟨hleading, Char.ofNat_toNat c, rfl⟩⟩

/-- A character is escaped by one that stands for it, by its number, or not at all. -/
theorem escape_cases (c : Char) :
    (∃ d, escape c = ['\\', d] ∧ d ≠ 'u' ∧ shortEscape? d = some c ∧ 0x20 ≤ d.toNat) ∨
      c.toNat < 0x20 ∧ escape c =
        ['\\', 'u', '0', '0', Nat.digitChar (c.toNat / 16), Nat.digitChar (c.toNat % 16)] ∨
      c ≠ '"' ∧ c ≠ '\\' ∧ 0x20 ≤ c.toNat ∧ escape c = [c] := by
  have hshort {d e : Char} (he : c = e) (hs : shortEscape? d = some e)
      (hd : d ≠ 'u' ∧ 0x20 ≤ d.toNat) :
      ∃ d', ['\\', d] = ['\\', d'] ∧ d' ≠ 'u' ∧ shortEscape? d' = some c ∧ 0x20 ≤ d'.toNat :=
    ⟨d, rfl, hd.1, he ▸ hs, hd.2⟩
  unfold escape
  -- the quote, the backslash and the five control characters with escapes of their own
  split
  · next hq => exact .inl (hshort hq rfl (by decide))
  · next hq =>
    split
    · next hb => exact .inl (hshort hb rfl (by decide))
    · next hb =>
      iterate 5
        split
        · next hc => exact .inl (hshort hc rfl (by decide))
      split
      · next hc => exact .inr (.inl ⟨hc, rfl⟩)
      · next hc => exact .inr (.inr ⟨hq, hb, Nat.le_of_not_lt hc, rfl⟩)

theorem gives_quotedChars_escape {c : Char} {chars : List Char}
    (h : Gives (quotedChars cs) chars rest) :
    Gives (quotedChars (escape c ++ cs)) (c :: chars) rest := by
  rcases escape_cases c with ⟨d, he, hd, hs, _⟩ | ⟨hc, he⟩ | ⟨hq, hb, hc, he⟩
  · rw [he]
    exact gives_quotedChars_iff.2 (.inr (.inl
      ⟨rfl, c, cs, gives_escapedChar_iff.2 (.inr ⟨hd, hs, rfl⟩), chars, h, rfl⟩))
  · rw [he]
    exact gives_quotedChars_iff.2 (.inr (.inl
      ⟨rfl, c, cs, gives_escapedChar_control hc, chars, h, rfl⟩))
  · rw [he]
    exact gives_quotedChars_iff.2 (.inr (.inr ⟨hq, hb, hc, chars, h, rfl⟩))

/-- What is written for a text is read as it. -/
theorem gives_quotedChars_flatMap (text rest : List Char) :
    Gives (quotedChars (text.flatMap escape ++ '"' :: rest)) text rest := by
  induction text with
  | nil => exact gives_quotedChars_iff.2 (.inl ⟨rfl, rfl, rfl⟩)
  | cons c text ih =>
    rw [List.flatMap_cons, List.append_assoc]
    exact gives_quotedChars_escape ih

/-- Texts without a character below the space. -/
def Printable (cs : List Char) : Prop := ∀ c ∈ cs, 0x20 ≤ c.toNat

theorem printable_nil : Printable [] := fun _ hc => absurd hc List.not_mem_nil

theorem Printable.cons {c : Char} (h : Printable cs) (hc : 0x20 ≤ c.toNat) :
    Printable (c :: cs) :=
  List.forall_mem_cons.2 ⟨hc, h⟩

theorem Printable.append {us : List Char} (h : Printable cs) (hus : Printable us) :
    Printable (cs ++ us) :=
  List.forall_mem_append.2 ⟨h, hus⟩

theorem printable_escape (c : Char) : Printable (escape c) := by
  have hdigit : ∀ n < 16, 0x20 ≤ (Nat.digitChar n).toNat := by decide
  rcases escape_cases c with ⟨d, he, _, _, hd⟩ | ⟨hc, he⟩ | ⟨_, _, hc, he⟩
  · rw [he]
    exact (printable_nil.cons hd).cons (by decide)
  · rw [he]
    have hlast := (printable_nil.cons (hdigit (c.toNat % 16) (by omega))).cons
      (hdigit (c.toNat / 16) (by omega))
    exact (((hlast.cons (by decide)).cons (by decide)).cons (by decide)).cons (by decide)
  · rw [he]
    exact printable_nil.cons hc

theorem printable_quote (s : String) : Printable (quote s) := by
  have hinside : Printable (s.toList.flatMap escape) := by
    intro d hd
    obtain ⟨c, _, hd⟩ := List.mem_flatMap.1 hd
    exact printable_escape c d hd
  exact (hinside.cons (by decide)).append (printable_nil.cons (by decide))

end SchemaContract.Json
