import SchemaContract.Proofs.Json.Derivation
import SchemaContract.Proofs.Json.Fields
import SchemaContract.Proofs.Json.Numeral

/-!
Normal JSON values: those that are read from texts with whole numerals only. Such a value is written
in a compact form that is read as it with no more brackets than it was read with.
-/
namespace SchemaContract.Json

open Found (Gives)

variable {depth : Nat} {cs rest gap : List Char}

/-- A value with whole numbers of 64 bits, sorted records, and brackets at most `depth` deep. -/
inductive Normal : Nat → Json → Prop where
  | null {depth : Nat} : Normal depth .null
  | boolean {depth : Nat} {b : Bool} : Normal depth (.boolean b)
  | integer {depth : Nat} {i : Int} (h : InRange i) : Normal depth (.integer i)
  | text {depth : Nat} {s : String} : Normal depth (.text s)
  | list {depth : Nat} {es : List Json} (h : ∀ e ∈ es, Normal depth e) :
      Normal (depth + 1) (.list es)
  | record {depth : Nat} {fs : List Field} (hkeys : SortedKeys fs)
      (h : ∀ f ∈ fs, Normal depth f.value) : Normal (depth + 1) (.record fs)

/-- Behind a mark there are whole numerals only. -/
theorem OnlyWhole.behind {c : Char} {us : List Char} (h : OnlyWhole cs)
    (hs : cs.dropWhile isSpace = c :: us) (hc : isOpening c = false) :
    OnlyWhole us := by
  have hus := onlyWhole_dropWhile.2 h
  rw [hs] at hus
  exact (onlyWhole_other hc).1 hus

theorem OnlyWhole.behind_quoted {us mid chars : List Char} (h : OnlyWhole cs)
    (hs : cs.dropWhile isSpace = '"' :: us) (hq : Gives (quotedChars us) chars mid) :
    OnlyWhole mid := by
  have hus := onlyWhole_dropWhile.2 h
  rw [hs, onlyWhole_quote, behindQuoted_of_quotedChars hq] at hus
  exact hus

theorem Scalar.normal {j : Json} (h : Scalar cs j rest) (hwhole : OnlyWhole cs) :
    Normal depth j ∧ OnlyWhole rest := by
  cases h with
  | null => exact ⟨.null, (@onlyWhole_append _ ['n', 'u', 'l', 'l'] rfl).1 hwhole⟩
  | truth => exact ⟨.boolean, (@onlyWhole_append _ ['t', 'r', 'u', 'e'] rfl).1 hwhole⟩
  | falsity =>
    exact ⟨.boolean, (@onlyWhole_append _ ['f', 'a', 'l', 's', 'e'] rfl).1 hwhole⟩
  | negative h =>
    obtain ⟨⟨i, rfl, hi⟩, hrest⟩ := integer_of_negative h hwhole
    exact ⟨.integer hi, hrest⟩
  | number hc h =>
    obtain ⟨⟨i, rfl, hi⟩, hrest⟩ := integer_of_number hc h hwhole
    exact ⟨.integer hi, hrest⟩
  | text h =>
    rw [onlyWhole_quote, behindQuoted_of_quotedChars h] at hwhole
    exact ⟨.text, hwhole⟩

/-- The values in a part are normal. -/
def Part.Normal (depth : Nat) : Part → Prop
  | value j => Json.Normal depth j
  | items es | moreItems es => ∀ e ∈ es, Json.Normal depth e
  | field f => Json.Normal depth f.value
  | fields fs | moreFields fs => ∀ f ∈ fs, Json.Normal depth f.value

/-- What is read from a text with whole numerals only is normal, and the rest of the text has whole
numerals only. -/
theorem Derives.normal {φ : Part} (h : Derives depth φ cs rest) (hwhole : OnlyWhole cs) :
    φ.Normal depth ∧ OnlyWhole rest := by
  induction h with
  | scalar h => exact h.normal (onlyWhole_dropWhile.2 hwhole)
  | list hs _ ih =>
    obtain ⟨hes, hrest⟩ := ih (hwhole.behind hs rfl)
    exact ⟨.list hes, hrest⟩
  | @record depth cs us rest fs hs _ ih =>
    obtain ⟨hfs, hrest⟩ := ih (hwhole.behind hs rfl)
    obtain ⟨sorted, hrecord, hsorted, hmem, _⟩ := exists_ofFields fs
    refine ⟨?_, hrest⟩
    -- fields may be dropped and moved, but none is added
    rw [hrecord]
    exact .record hsorted fun f hf => hfs f (hmem f hf)
  | noItems hs | endItems hs => exact ⟨nofun, hwhole.behind hs rfl⟩
  | noFields hs | endFields hs => exact ⟨nofun, hwhole.behind hs rfl⟩
  | items _ _ ih₁ ih₂ =>
    obtain ⟨he, hmid⟩ := ih₁ hwhole
    obtain ⟨hes, hrest⟩ := ih₂ hmid
    exact ⟨List.forall_mem_cons.2 ⟨he, hes⟩, hrest⟩
  | moreItems hs _ _ ih₁ ih₂ =>
    obtain ⟨he, hmid⟩ := ih₁ (hwhole.behind hs rfl)
    obtain ⟨hes, hrest⟩ := ih₂ hmid
    exact ⟨List.forall_mem_cons.2 ⟨he, hes⟩, hrest⟩
  | field hs hk _ ih =>
    obtain ⟨chars, us, hq, hcolon, _⟩ := gives_key_iff.1 hk
    exact ih ((hwhole.behind_quoted hs hq).behind hcolon rfl)
  | fields _ _ ih₁ ih₂ =>
    obtain ⟨hf, hmid⟩ := ih₁ hwhole
    obtain ⟨hfs, hrest⟩ := ih₂ hmid
    exact ⟨List.forall_mem_cons.2 ⟨hf, hfs⟩, hrest⟩
  | moreFields hs _ _ ih₁ ih₂ =>
    obtain ⟨hf, hmid⟩ := ih₁ (hwhole.behind hs rfl)
    obtain ⟨hfs, hrest⟩ := ih₂ hmid
    exact ⟨List.forall_mem_cons.2 ⟨hf, hfs⟩, hrest⟩

/-- The items of a list behind the first and the closing bracket, with a gap behind the commas. -/
def gappedItems (gap : List Char) : List Json → List Char
  | [] => [']']
  | e :: es => ',' :: gap ++ compactChars e ++ gappedItems gap es

/-- A list with a gap behind the commas. -/
def gappedList (gap : List Char) : List Json → List Char
  | [] => ['[', ']']
  | e :: es => '[' :: compactChars e ++ gappedItems gap es

theorem compactItems_eq (es : List Json) : compactItems es = gappedItems [] es := by
  induction es with
  | nil => rfl
  | cons e es ih =>
    rw [compactItems, gappedItems, ih]
    rfl

theorem compactChars_list (es : List Json) : compactChars (.list es) = gappedList [] es := by
  cases es with
  | nil => rfl
  | cons e es => rw [compactChars, gappedList, compactItems_eq]

theorem compactField_eq (f : Field) :
    compactField f = quote f.key ++ ':' :: compactChars f.value := by
  cases f
  rfl

theorem endsNumeral_cons {c : Char} (h : isNumeralPart c = false) : EndsNumeral (c :: cs) := by
  intro d hd
  cases hd
  exact h

theorem endsNumeral_gappedItems (gap : List Char) (es : List Json) (rest : List Char) :
    EndsNumeral (gappedItems gap es ++ rest) := by
  cases es <;> exact endsNumeral_cons rfl

theorem endsNumeral_compactFields (fs : List Field) (rest : List Char) :
    EndsNumeral (compactFields fs ++ rest) := by
  cases fs <;> exact endsNumeral_cons rfl

theorem Scalar.dropWhile_eq {j : Json} (h : Scalar cs j rest) : cs.dropWhile isSpace = cs := by
  cases h with
  | @number c cs _ _ hc h =>
    apply List.dropWhile_cons_of_neg
    intro hs
    simp only [isSpace, Bool.or_eq_true, beq_iff_eq] at hs
    rcases hs with ((rfl | rfl) | rfl) | rfl <;> cases hc
  | _ => rfl

theorem Scalar.derives {j : Json} (h : Scalar cs j rest) : Derives depth (.value j) cs rest :=
  .scalar (h.dropWhile_eq.symm ▸ h)

/-- White space in front of a value changes nothing. -/
theorem Derives.value_gap {j : Json} (h : Derives depth (.value j) cs rest)
    (hgap : ∀ c ∈ gap, isSpace c = true) :
    Derives depth (.value j) (gap ++ cs) rest := by
  have hs : (gap ++ cs).dropWhile isSpace = cs.dropWhile isSpace :=
    List.dropWhile_append_of_pos hgap
  cases h with
  | scalar h => exact .scalar (hs.symm ▸ h)
  | list h hes => exact .list (hs.trans h) hes
  | record h hfs => exact .record (hs.trans h) hfs

/-- What is written for a value is read as it, if no numeral goes on behind it. -/
def ReadsBack (depth : Nat) (j : Json) : Prop :=
  ∀ rest, EndsNumeral rest → Derives depth (.value j) (compactChars j ++ rest) rest

section

variable {es : List Json} {fs : List Field}

theorem derives_gappedItems (hgap : ∀ c ∈ gap, isSpace c = true)
    (h : ∀ e ∈ es, ReadsBack depth e) (rest : List Char) :
    Derives depth (.moreItems es) (gappedItems gap es ++ rest) rest := by
  induction es with
  | nil => exact .endItems rfl
  | cons e es ih =>
    obtain ⟨he, hes⟩ := List.forall_mem_cons.1 h
    have hvalue := (he _ (endsNumeral_gappedItems gap es rest)).value_gap hgap
    refine .moreItems ?_ hvalue (ih hes)
    simp [gappedItems, isSpace]

/-- A list is read from its items, whatever white space stands behind the commas. -/
theorem derives_gappedList (hgap : ∀ c ∈ gap, isSpace c = true)
    (h : ∀ e ∈ es, ReadsBack depth e) (rest : List Char) :
    Derives (depth + 1) (.value (.list es)) (gappedList gap es ++ rest) rest := by
  cases es with
  | nil => exact .list rfl (.noItems rfl)
  | cons e es =>
    obtain ⟨he, hes⟩ := List.forall_mem_cons.1 h
    refine .list ?_ (.items (he _ (endsNumeral_gappedItems gap es rest))
      (derives_gappedItems hgap hes rest))
    simp [gappedList, isSpace]

theorem derives_compactField {f : Field}
    (h : Derives depth (.value f.value) (compactChars f.value ++ rest) rest) :
    Derives depth (.field f) (compactField f ++ rest) rest := by
  have hkey : Gives (key (f.key.toList.flatMap escape ++ '"' :: ':' ::
      (compactChars f.value ++ rest))) f.key (compactChars f.value ++ rest) :=
    gives_key_iff.2 ⟨_, _, gives_quotedChars_flatMap _ _, rfl, String.ofList_toList⟩
  refine .field ?_ hkey h
  simp [compactField_eq, quote, isSpace]

theorem derives_compactFields (h : ∀ f ∈ fs, ReadsBack depth f.value) (rest : List Char) :
    Derives depth (.moreFields fs) (compactFields fs ++ rest) rest := by
  induction fs with
  | nil => exact .endFields rfl
  | cons f fs ih =>
    obtain ⟨hf, hfs⟩ := List.forall_mem_cons.1 h
    have hfield := derives_compactField (hf _ (endsNumeral_compactFields fs rest))
    refine .moreFields ?_ hfield (ih hfs)
    simp [compactFields, isSpace]

/-- A sorted record is read from its fields. -/
theorem derives_compactRecord (hkeys : SortedKeys fs)
    (h : ∀ f ∈ fs, ReadsBack depth f.value) (rest : List Char) :
    Derives (depth + 1) (.value (.record fs)) (compactChars (.record fs) ++ rest) rest := by
  have hrecord {us cs : List Char} (hs : cs.dropWhile isSpace = '{' :: us)
      (hfs : Derives depth (.fields fs) us rest) :
      Derives (depth + 1) (.value (.record fs)) cs rest := by
    rw [← ofFields_of_sorted hkeys]
    exact .record hs hfs
  cases fs with
  | nil => exact hrecord rfl (.noFields rfl)
  | cons f fs =>
    obtain ⟨hf, hfs⟩ := List.forall_mem_cons.1 h
    have hfield := derives_compactField (hf _ (endsNumeral_compactFields fs rest))
    refine hrecord ?_ (.fields hfield (derives_compactFields hfs rest))
    simp [compactChars, isSpace]

end

/-- What is written for a normal value is read as it, with no more brackets to open. -/
theorem Normal.readsBack {j : Json} (h : Normal depth j) : ReadsBack depth j := by
  intro rest hrest
  induction h generalizing rest with
  | null => exact Scalar.derives .null
  | @boolean _ b =>
    cases b
    · exact Scalar.derives .falsity
    · exact Scalar.derives .truth
  | integer hi => exact (scalar_integerChars hi hrest).derives
  | @text _ s =>
    have h := Scalar.text (gives_quotedChars_flatMap s.toList rest)
    rw [String.ofList_toList] at h
    rw [compactChars, quote, List.append_assoc]
    exact h.derives
  | @list depth es _ ih =>
    rw [compactChars_list]
    exact derives_gappedList (fun c hc => absurd hc List.not_mem_nil) ih rest
  | @record depth fs hkeys _ ih =>
    exact derives_compactRecord hkeys ih rest

theorem printable_gappedItems {es : List Json} (hgap : Printable gap)
    (h : ∀ e ∈ es, Printable (compactChars e)) : Printable (gappedItems gap es) := by
  induction es with
  | nil => exact printable_nil.cons (by decide)
  | cons e es ih =>
    obtain ⟨he, hes⟩ := List.forall_mem_cons.1 h
    exact ((hgap.cons (by decide)).append he).append (ih hes)

theorem printable_gappedList {es : List Json} (hgap : Printable gap)
    (h : ∀ e ∈ es, Printable (compactChars e)) : Printable (gappedList gap es) := by
  cases es with
  | nil => exact (printable_nil.cons (by decide)).cons (by decide)
  | cons e es =>
    obtain ⟨he, hes⟩ := List.forall_mem_cons.1 h
    exact (he.cons (by decide)).append (printable_gappedItems hgap hes)

theorem printable_compactField {f : Field} (h : Printable (compactChars f.value)) :
    Printable (compactField f) := by
  rw [compactField_eq]
  exact (printable_quote f.key).append (h.cons (by decide))

theorem printable_compactFields {fs : List Field}
    (h : ∀ f ∈ fs, Printable (compactChars f.value)) : Printable (compactFields fs) := by
  induction fs with
  | nil => exact printable_nil.cons (by decide)
  | cons f fs ih =>
    obtain ⟨hf, hfs⟩ := List.forall_mem_cons.1 h
    exact ((printable_compactField hf).cons (by decide)).append (ih hfs)

theorem printable_compactRecord {fs : List Field}
    (h : ∀ f ∈ fs, Printable (compactChars f.value)) :
    Printable (compactChars (.record fs)) := by
  cases fs with
  | nil => exact (printable_nil.cons (by decide)).cons (by decide)
  | cons f fs =>
    obtain ⟨hf, hfs⟩ := List.forall_mem_cons.1 h
    exact ((printable_compactField hf).cons (by decide)).append (printable_compactFields hfs)

theorem Normal.printable {j : Json} (h : Normal depth j) : Printable (compactChars j) := by
  induction h with
  | null => simp [compactChars, Printable]
  | @boolean _ b => cases b <;> simp [compactChars, booleanChars, Printable]
  | @integer _ i => exact printable_integerChars i
  | @text _ s => exact printable_quote s
  | list _ ih =>
    rw [compactChars_list]
    exact printable_gappedList printable_nil ih
  | record _ _ ih => exact printable_compactRecord ih

end SchemaContract.Json
