import Mathlib
import SchemaContract.Proofs.Json.Numeral
import SchemaContract.Proofs.Number.Text

/-!
Indented texts of JSON values. The first character of a text tells the kind of the value, and what
follows tells the value and where its text ends, so that no two values have one text.
-/
namespace SchemaContract.Json

variable {j j' : Json} {depth : Nat} {cs ds rest rest' : List Char}

/-- All doubles are finite, at every depth. Others are written like `null`. -/
inductive AllFinite : Json → Prop where
  | null : AllFinite .null
  | boolean {b : Bool} : AllFinite (.boolean b)
  | integer {i : Int} : AllFinite (.integer i)
  | float {x : Binary64} (h : x.isFinite = true) : AllFinite (.float x)
  | text {s : String} : AllFinite (.text s)
  | list {items : List Json} (h : ∀ j ∈ items, AllFinite j) : AllFinite (.list items)
  | record {fields : List Field} (h : ∀ f ∈ fields, AllFinite f.value) : AllFinite (.record fields)

@[simp] theorem allFinite_null : AllFinite .null := .null

@[simp] theorem allFinite_boolean (b : Bool) : AllFinite (.boolean b) := .boolean

@[simp] theorem allFinite_text (s : String) : AllFinite (.text s) := .text

@[simp] theorem allFinite_float (x : Binary64) : AllFinite (.float x) ↔ x.isFinite = true := by
  refine ⟨fun h => ?_, .float⟩
  cases h with
  | float h => exact h

@[simp] theorem allFinite_list (items : List Json) :
    AllFinite (.list items) ↔ ∀ j ∈ items, AllFinite j := by
  refine ⟨fun h => ?_, .list⟩
  cases h with
  | list h => exact h

@[simp] theorem allFinite_record (fields : List Field) :
    AllFinite (.record fields) ↔ ∀ f ∈ fields, AllFinite f.value := by
  refine ⟨fun h => ?_, .record⟩
  cases h with
  | record h => exact h

/-- Parts behind the first, each on a line of its own, and the closing bracket. -/
def prettyRest {α : Type} (print : α → List Char) (closing : Char) (depth : Nat) :
    List α → List Char
  | [] => newLine depth ++ [closing]
  | a :: as => ',' :: newLine (depth + 1) ++ print a ++ prettyRest print closing depth as

/-- Parts in brackets, each on a line of its own. -/
def enclosed {α : Type} (opening closing : Char) (print : α → List Char) (depth : Nat) :
    List α → List Char
  | [] => [opening, closing]
  | a :: as => opening :: newLine (depth + 1) ++ print a ++ prettyRest print closing depth as

theorem prettyItems_eq (depth : Nat) (items : List Json) :
    prettyItems depth items = prettyRest (prettyChars (depth + 1)) ']' depth items := by
  induction items with
  | nil => rfl
  | cons item items ih => rw [prettyItems, prettyRest, ih]

theorem prettyFields_eq (depth : Nat) (fields : List Field) :
    prettyFields depth fields = prettyRest (prettyField (depth + 1)) '}' depth fields := by
  induction fields with
  | nil => rfl
  | cons field fields ih => rw [prettyFields, prettyRest, ih]

theorem prettyChars_list (depth : Nat) (items : List Json) :
    prettyChars depth (.list items) = enclosed '[' ']' (prettyChars (depth + 1)) depth items := by
  cases items with
  | nil => rfl
  | cons item items => rw [prettyChars, prettyItems_eq, enclosed]

theorem prettyChars_record (depth : Nat) (fields : List Field) :
    prettyChars depth (.record fields) =
      enclosed '{' '}' (prettyField (depth + 1)) depth fields := by
  cases fields with
  | nil => rfl
  | cons field fields => rw [prettyChars, prettyFields_eq, enclosed]

section Parts

variable {α : Type} {print : α → List Char} {opening closing : Char} {as bs : List α}

/-- Two parts with one text are the same, and so is what stands behind them. -/
def Separates (print : α → List Char) (a b : α) : Prop :=
  ∀ rest rest', EndsNumeral rest → EndsNumeral rest' → print a ++ rest = print b ++ rest' →
    a = b ∧ rest = rest'

theorem endsNumeral_prettyRest (as : List α) (rest : List Char) :
    EndsNumeral (prettyRest print closing depth as ++ rest) := by
  intro c hc
  cases as <;> cases hc <;> rfl

theorem prettyRest_append_inj (h : ∀ a ∈ as, ∀ b ∈ bs, Separates print a b)
    (hrest : prettyRest print closing depth as ++ rest =
      prettyRest print closing depth bs ++ rest') : as = bs ∧ rest = rest' := by
  induction as generalizing bs with
  | nil =>
    cases bs with
    | nil => exact ⟨rfl, List.append_cancel_left hrest⟩
    | cons b bs => cases hrest
  | cons a as ih =>
    cases bs with
    | nil => cases hrest
    | cons b bs =>
      obtain ⟨ha, has⟩ := List.forall_mem_cons.1 h
      have hparts : print a ++ (prettyRest print closing depth as ++ rest) =
          print b ++ (prettyRest print closing depth bs ++ rest') := by
        simp only [prettyRest, List.append_assoc, List.cons_append] at hrest
        exact List.append_cancel_left (List.tail_eq_of_cons_eq hrest)
      obtain ⟨rfl, hothers⟩ := ha b List.mem_cons_self _ _ (endsNumeral_prettyRest as rest)
        (endsNumeral_prettyRest bs rest') hparts
      obtain ⟨rfl, hend⟩ := ih (fun a ha b hb => has a ha b (List.mem_cons_of_mem _ hb)) hothers
      exact ⟨rfl, hend⟩

/-- Parts in brackets are told by their text. -/
theorem enclosed_append_inj (hclosing : closing ≠ '\n')
    (h : ∀ a ∈ as, ∀ b ∈ bs, Separates print a b)
    (hrest : enclosed opening closing print depth as ++ rest =
      enclosed opening closing print depth bs ++ rest') : as = bs ∧ rest = rest' := by
  cases as with
  | nil =>
    cases bs with
    | nil => exact ⟨rfl, List.append_cancel_left hrest⟩
    | cons b bs =>
      cases hrest
      exact absurd rfl hclosing
  | cons a as =>
    cases bs with
    | nil =>
      cases hrest
      exact absurd rfl hclosing
    | cons b bs =>
      -- behind the opening bracket stands what stands behind a comma
      refine @prettyRest_append_inj depth rest rest' α print closing _ _ h ?_
      simp only [enclosed, prettyRest, List.append_assoc, List.cons_append] at hrest ⊢
      rw [List.tail_eq_of_cons_eq hrest]

end Parts

theorem quote_append_inj {s t : String} (h : quote s ++ rest = quote t ++ rest') :
    s = t ∧ rest = rest' := by
  have hs := gives_quotedChars_flatMap s.toList rest
  have ht := gives_quotedChars_flatMap t.toList rest'
  simp only [quote, List.append_assoc, List.cons_append, List.nil_append] at h
  rw [List.tail_eq_of_cons_eq h] at hs
  obtain ⟨hchars, hrest⟩ := hs.unique ht
  exact ⟨String.toList_inj.1 hchars, hrest⟩

/-- A field is told by its text when its value is. -/
theorem separates_prettyField {f g : Field}
    (h : Separates (prettyChars depth) f.value g.value) : Separates (prettyField depth) f g := by
  obtain ⟨key, value⟩ := f
  obtain ⟨key', value'⟩ := g
  intro rest rest' hrest hrest' htext
  simp only [prettyField, List.append_assoc, List.cons_append] at htext
  obtain ⟨rfl, hvalues⟩ := quote_append_inj htext
  obtain ⟨rfl, hend⟩ := h rest rest' hrest hrest'
    (List.tail_eq_of_cons_eq (List.tail_eq_of_cons_eq hvalues))
  exact ⟨rfl, hend⟩

/-- A numeral ends where its characters end. -/
theorem numeral_append_inj (hcs : ∀ c ∈ cs, isNumeralPart c = true)
    (hds : ∀ c ∈ ds, isNumeralPart c = true) (hrest : EndsNumeral rest)
    (hrest' : EndsNumeral rest') (h : cs ++ rest = ds ++ rest') : cs = ds ∧ rest = rest' := by
  have htake {us vs : List Char} (hus : ∀ c ∈ us, isNumeralPart c = true)
      (hvs : EndsNumeral vs) : (us ++ vs).takeWhile isNumeralPart = us := by
    rw [List.takeWhile_append_of_pos hus]
    cases vs with
    | nil => exact List.append_nil us
    | cons v vs => rw [List.takeWhile_cons_of_neg (by simp [hvs v rfl]), List.append_nil]
  have heq : cs = ds := by rw [← htake hcs hrest, h, htake hds hrest']
  subst heq
  exact ⟨rfl, List.append_cancel_left h⟩

theorem parts_integerChars (i : Int) : ∀ c ∈ integerChars i, c.isDigit = true ∨ c = '-' := by
  intro c hc
  unfold integerChars at hc
  split at hc
  · rcases List.mem_cons.1 hc with rfl | hc
    · exact .inr rfl
    · exact .inl (isDigit_toDigits _ c hc)
  · exact .inl (isDigit_toDigits _ c hc)

theorem numeral_integerChars (i : Int) : ∀ c ∈ integerChars i, isNumeralPart c = true := by
  intro c hc
  rcases parts_integerChars i c hc with hdigit | rfl
  · exact isNumeralPart_of_isDigit hdigit
  · rfl

theorem integerChars_injective : Function.Injective integerChars := by
  intro i k h
  have hsigned (n : Nat) (cs : List Char) : Nat.toDigits 10 n ≠ '-' :: cs := by
    intro hn
    have hdigit := isDigit_toDigits n '-' (by simp [hn])
    cases hdigit
  have hvalue {m n : Nat} (hmn : Nat.toDigits 10 m = Nat.toDigits 10 n) : m = n := by
    rw [← @Nat.ofDigitChars_ten_toDigits m, hmn, Nat.ofDigitChars_ten_toDigits]
  unfold integerChars at h
  split at h <;> split at h
  · have habs := hvalue (List.tail_eq_of_cons_eq h)
    omega
  · exact absurd h.symm (hsigned _ _)
  · exact absurd h (hsigned _ _)
  · have habs := hvalue h
    omega

/-- A finite double is written as a text that spells it, behind a sign if it is negative. -/
theorem exists_floatChars {x : Binary64} (h : x.isFinite = true) :
    ∃ sign cs q, floatChars x = sign ++ cs ∧ (sign = [] ∨ sign = ['-']) ∧ Spells cs q := by
  obtain ⟨cs, hcs, hspells⟩ := NumberFormat.json.text_spec x
  refine ⟨_, cs, _, by rw [floatChars, if_pos h, hcs], ?_, hspells⟩
  split
  · exact .inr rfl
  · exact .inl rfl

theorem head_floatChars {x : Binary64} (h : x.isFinite = true) :
    ∃ c cs, floatChars x = c :: cs ∧ (c.isDigit = true ∨ c = '-') := by
  obtain ⟨sign, cs, q, hcs, hsign, hspells⟩ := exists_floatChars h
  obtain ⟨c, hc, hdigit⟩ := hspells.head
  obtain ⟨us, rfl⟩ := List.head?_eq_some_iff.1 hc
  rw [hcs]
  rcases hsign with rfl | rfl
  · exact ⟨c, us, rfl, .inl hdigit⟩
  · exact ⟨'-', c :: us, rfl, .inr rfl⟩

theorem numeral_floatChars {x : Binary64} (h : x.isFinite = true) :
    ∀ c ∈ floatChars x, isNumeralPart c = true := by
  obtain ⟨sign, cs, q, hcs, hsign, hspells⟩ := exists_floatChars h
  intro c hc
  rw [hcs] at hc
  rcases List.mem_append.1 hc with hc | hc
  · rcases hsign with rfl | rfl
    · cases hc
    · rw [List.mem_singleton.1 hc]
      rfl
  rcases hspells.parts c hc with hdigit | hmark
  · exact isNumeralPart_of_isDigit hdigit
  · simp only [List.mem_cons, List.not_mem_nil, or_false] at hmark
    rcases hmark with rfl | rfl | rfl | rfl <;> rfl

/-- A double is never written like a whole number, which has no point and no exponent. -/
theorem integerChars_ne_floatChars {x : Binary64} (h : x.isFinite = true) (i : Int) :
    integerChars i ≠ floatChars x := by
  obtain ⟨sign, cs, q, hcs, -, hspells⟩ := exists_floatChars h
  intro hi
  have hparts := parts_integerChars i
  rw [hi, hcs] at hparts
  rcases hspells.marked with hmark | hmark
  · rcases hparts '.' (List.mem_append_right _ hmark) with h | h <;> cases h
  · rcases hparts 'e' (List.mem_append_right _ hmark) with h | h <;> cases h

theorem floatChars_injective {x y : Binary64} (hx : x.isFinite = true) (hy : y.isFinite = true)
    (h : floatChars x = floatChars y) : x = y := by
  unfold floatChars at h
  rw [if_pos hx, if_pos hy] at h
  exact NumberFormat.json.text_injective (String.toList_inj.1 h)

inductive Kind where
  | null
  | boolean
  | number
  | text
  | list
  | record

def kind : Json → Kind
  | .null => .null
  | .boolean _ => .boolean
  | .integer _ | .float _ => .number
  | .text _ => .text
  | .list _ => .list
  | .record _ => .record

/-- The kind of the values whose texts begin with a character. -/
def Kind.ofFirst (c : Char) : Kind :=
  if c.isDigit = true ∨ c = '-' then .number
  else if c = '"' then .text
  else if c = '[' then .list
  else if c = '{' then .record
  else if c = 'n' then .null
  else .boolean

theorem ofFirst_prettyChars (h : j.AllFinite) (depth : Nat) :
    ∃ c cs, j.prettyChars depth = c :: cs ∧ Kind.ofFirst c = j.kind := by
  cases h with
  | null => exact ⟨_, _, rfl, rfl⟩
  | @boolean b => cases b <;> exact ⟨_, _, rfl, rfl⟩
  | @integer i =>
    have hparts := parts_integerChars i
    cases hi : integerChars i with
    | nil =>
      unfold integerChars at hi
      split at hi
      · cases hi
      · exact absurd hi Nat.toDigits_ne_nil
    | cons c cs =>
      rw [hi] at hparts
      exact ⟨c, cs, hi, if_pos (hparts c List.mem_cons_self)⟩
  | float hx =>
    obtain ⟨c, cs, hcs, hc⟩ := head_floatChars hx
    exact ⟨c, cs, hcs, if_pos hc⟩
  | text => exact ⟨_, _, rfl, rfl⟩
  | @list items => cases items <;> exact ⟨_, _, rfl, rfl⟩
  | @record fields => cases fields <;> exact ⟨_, _, rfl, rfl⟩

/-- Values with one text in front of something are of one kind. -/
theorem kind_eq (h : j.AllFinite) (h' : j'.AllFinite)
    (htext : j.prettyChars depth ++ rest = j'.prettyChars depth ++ rest') : j.kind = j'.kind := by
  obtain ⟨c, cs, hcs, hc⟩ := ofFirst_prettyChars h depth
  obtain ⟨d, ds, hds, hd⟩ := ofFirst_prettyChars h' depth
  rw [hcs, hds] at htext
  rw [← hc, ← hd, List.head_eq_of_cons_eq htext]

theorem AllFinite.numeral (h : j.AllFinite) (hkind : j.kind = .number) (depth : Nat) :
    ∀ c ∈ j.prettyChars depth, isNumeralPart c = true := by
  cases h with
  | @integer i => exact numeral_integerChars i
  | float hx => exact numeral_floatChars hx
  | _ => cases hkind

/-- A number tells itself by its numeral, which also tells whether it is whole. -/
theorem AllFinite.separates_number (h : j.AllFinite) (h' : j'.AllFinite)
    (hkind : j.kind = .number) (depth : Nat) : Separates (prettyChars depth) j j' := by
  intro rest rest' hrest hrest' htext
  have hkind' : j'.kind = .number := (kind_eq h h' htext).symm.trans hkind
  obtain ⟨hchars, hend⟩ := numeral_append_inj (h.numeral hkind depth) (h'.numeral hkind' depth)
    hrest hrest' htext
  refine ⟨?_, hend⟩
  cases h with
  | @integer i =>
    cases h' with
    | integer => exact congrArg Json.integer (integerChars_injective hchars)
    | float hx' => exact absurd hchars (integerChars_ne_floatChars hx' i)
    | _ => cases hkind'
  | float hx =>
    cases h' with
    | @integer i' => exact absurd hchars.symm (integerChars_ne_floatChars hx i')
    | float hx' => exact congrArg Json.float (floatChars_injective hx hx' hchars)
    | _ => cases hkind'
  | _ => cases hkind

/-- The text of a value tells it and where it ends, whatever stands behind. -/
theorem AllFinite.separates (h : j.AllFinite) (h' : j'.AllFinite) (depth : Nat) :
    Separates (prettyChars depth) j j' := by
  induction h generalizing depth j' with
  | null =>
    intro rest rest' _ _ htext
    have hkind := kind_eq .null h' htext
    cases h' with
    | null => exact ⟨rfl, List.append_cancel_left htext⟩
    | _ => cases hkind
  | @boolean b =>
    intro rest rest' _ _ htext
    have hkind := kind_eq .boolean h' htext
    cases h' with
    | @boolean b' =>
      cases b <;> cases b'
      · exact ⟨rfl, List.append_cancel_left htext⟩
      · cases htext
      · cases htext
      · exact ⟨rfl, List.append_cancel_left htext⟩
    | _ => cases hkind
  | integer => exact AllFinite.integer.separates_number h' rfl depth
  | float hx => exact (AllFinite.float hx).separates_number h' rfl depth
  | @text s =>
    intro rest rest' _ _ htext
    have hkind := kind_eq .text h' htext
    cases h' with
    | @text t =>
      obtain ⟨rfl, hrest⟩ := quote_append_inj htext
      exact ⟨rfl, hrest⟩
    | _ => cases hkind
  | @list items hitems ih =>
    intro rest rest' _ _ htext
    have hkind := kind_eq (.list hitems) h' htext
    cases h' with
    | @list items' hitems' =>
      rw [prettyChars_list, prettyChars_list] at htext
      obtain ⟨rfl, hrest⟩ := enclosed_append_inj (by decide)
        (fun a ha b hb => ih a ha (hitems' b hb) (depth + 1)) htext
      exact ⟨rfl, hrest⟩
    | _ => cases hkind
  | @record fields hfields ih =>
    intro rest rest' _ _ htext
    have hkind := kind_eq (.record hfields) h' htext
    cases h' with
    | @record fields' hfields' =>
      rw [prettyChars_record, prettyChars_record] at htext
      obtain ⟨rfl, hrest⟩ := enclosed_append_inj (by decide)
        (fun f hf g hg => separates_prettyField (ih f hf (hfields' g hg) (depth + 1))) htext
      exact ⟨rfl, hrest⟩
    | _ => cases hkind

/-- Values with one indented text are the same. -/
theorem AllFinite.pretty_inj (h : j.AllFinite) (h' : j'.AllFinite) :
    j.pretty = j'.pretty ↔ j = j' := by
  refine ⟨fun htext => ?_, congrArg pretty⟩
  have hchars : j.prettyChars 0 = j'.prettyChars 0 := String.ofList_inj.1 htext
  have hends : EndsNumeral [] := nofun
  exact (h.separates h' 0 [] [] hends hends (by rw [hchars])).1

end SchemaContract.Json
