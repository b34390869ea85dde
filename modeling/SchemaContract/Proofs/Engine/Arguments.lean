import SchemaContract.Proofs.Engine.Trials
import SchemaContract.Proofs.Json.Normal

/-!
Arguments of calls. The text that an argument list is written as is a normal form where all numbers
are whole: it is accepted and written as itself, it is read as the list that it was written for, and
it stands on one line.
-/
namespace SchemaContract

open Json

namespace Json

variable {depth : Nat} {cs : List Char} {j : Json}

/-- Reading with another limit to how deep brackets nest. -/
def readWithin (depth : Nat) (cs : List Char) : Except Fault Json := do
  let found ← value depth cs
  match next? found.rest with
  | none => .ok found.value
  | some ⟨c, cs, _⟩ => .error (.next .trailingText (c :: cs))

theorem read_eq (cs : List Char) : read cs = readWithin depthLimit cs := rfl

theorem readWithin_eq_ok_iff :
    readWithin depth cs = .ok j ↔
      ∃ rest, Derives depth (.value j) cs rest ∧ rest.dropWhile isSpace = [] := by
  simp only [derives_iff_given, Part.Given]
  constructor
  · intro h
    cases hv : value depth cs with
    | error fault => simp [readWithin, hv, bind, Except.bind] at h
    | ok found =>
      cases hs : found.rest.dropWhile isSpace with
      | nil =>
        simp only [readWithin, hv, bind, Except.bind, next?_of_nil hs, Except.ok.injEq] at h
        exact ⟨found.rest, Found.gives_ok_iff.2 ⟨h, rfl⟩, hs⟩
      | cons c us =>
        obtain ⟨hlt, hn⟩ := next?_of_cons hs
        simp [readWithin, hv, bind, Except.bind, hn] at h
  · rintro ⟨rest, ⟨hlt, hv⟩, hs⟩
    simp [readWithin, hv, bind, Except.bind, next?_of_nil hs]

/-- A text is read as one value, whatever the limits. -/
theorem readWithin_unique {more : Nat} {k : Json} (h : readWithin depth cs = .ok j)
    (h' : readWithin more cs = .ok k) : j = k := by
  obtain ⟨rest, hj, _⟩ := readWithin_eq_ok_iff.1 h
  obtain ⟨rest', hk, _⟩ := readWithin_eq_ok_iff.1 h'
  have hj := (hj.mono (Nat.le_max_left depth more)).given
  have hk := (hk.mono (Nat.le_max_right depth more)).given
  exact (Found.Gives.unique hj hk).1

theorem normal_of_readWithin (h : readWithin depth cs = .ok j) (hwhole : OnlyWhole cs) :
    Normal depth j := by
  obtain ⟨rest, hj, _⟩ := readWithin_eq_ok_iff.1 h
  exact (hj.normal hwhole).1

theorem readWithin_gappedList {gap : List Char} {es : List Json}
    (hgap : ∀ c ∈ gap, isSpace c = true) (h : Normal depth (.list es)) :
    readWithin depth (gappedList gap es) = .ok (.list es) := by
  cases h with
  | list h =>
    have hread := derives_gappedList hgap (fun e he => (h e he).readsBack) []
    rw [List.append_nil] at hread
    exact readWithin_eq_ok_iff.2 ⟨[], hread, rfl⟩

theorem printable_of_normal {gap : List Char} {es : List Json} (hgap : Printable gap)
    (h : Normal depth (.list es)) : Printable (gappedList gap es) := by
  cases h with
  | list h => exact printable_gappedList hgap fun e he => (h e he).printable

end Json

def argumentText (items : List Json) : String :=
  "[" ++ ", ".intercalate (items.map Json.compact) ++ "]"

theorem argumentList_eq_ok_iff {text result : String} :
    argumentList text = .ok result ↔
      ∃ items, read text.toList = .ok (.list items) ∧ argumentText items = result := by
  constructor
  · intro h
    cases hr : read text.toList with
    | error fault =>
      rw [argumentList_of_error hr] at h
      cases h
    | ok j =>
      by_cases hj : ∃ items, j = .list items
      · obtain ⟨items, rfl⟩ := hj
        rw [argumentList_of_list hr] at h
        exact ⟨items, rfl, Except.ok.inj h⟩
      · rw [argumentList_of_ne_list hr fun items he => hj ⟨items, he⟩] at h
        cases h
  · rintro ⟨items, hr, rfl⟩
    exact argumentList_of_list hr

theorem toList_argumentText (items : List Json) :
    (argumentText items).toList = gappedList [' '] items := by
  have hmore (e : Json) (es : List Json) :
      [',', ' '].intercalate ((e :: es).map compactChars) ++ [']'] =
        compactChars e ++ gappedItems [' '] es := by
    induction es generalizing e with
    | nil => simp [gappedItems]
    | cons e' es ih =>
      have h := ih e'
      rw [List.map_cons] at h
      simp [gappedItems, List.intercalate_cons_cons, h]
  have hitems : (items.map Json.compact).map String.toList = items.map compactChars := by
    simp [Function.comp_def, compact]
  unfold argumentText
  rw [String.toList_append, String.toList_append, String.toList_intercalate, hitems]
  cases items with
  | nil => rfl
  | cons e es =>
    simpa [gappedList] using hmore e es

/-- Where the numbers in an argument list are whole, what is written for it is accepted and written
as itself. It is read as the same values, within every limit to the nesting that the list itself is
read within, and it has no control characters, so that it stays on one line. Of fields with one key
the last is read, and the fields of a record are in the order of their keys. -/
theorem argumentList_normal :
    (∀ text result, argumentList text = .ok result → OnlyWhole text.toList →
      argumentList result = .ok result ∧
      (∃ items, read text.toList = .ok (.list items) ∧ read result.toList = .ok (.list items)) ∧
      (∀ depth j, readWithin depth text.toList = .ok j →
        readWithin depth result.toList = .ok j) ∧
      ∀ c ∈ result.toList, 0x20 ≤ c.toNat) ∧
    ∀ fields, ∃ sorted, ofFields fields = .record sorted ∧ SortedKeys sorted ∧
      ∀ key, fieldOf? sorted key = fieldOf? fields.reverse key := by
  constructor
  · intro text result hresult hwhole
    obtain ⟨items, hread, rfl⟩ := argumentList_eq_ok_iff.1 hresult
    have hlimit : readWithin depthLimit text.toList = .ok (.list items) := by rwa [← read_eq]
    have hsame (depth : Nat) (j : Json) (h : readWithin depth text.toList = .ok j) :
        readWithin depth (argumentText items).toList = .ok j := by
      have hnormal := normal_of_readWithin h hwhole
      cases readWithin_unique h hlimit
      rw [toList_argumentText]
      exact readWithin_gappedList (List.all_eq_true.1 rfl) hnormal
    have hagain : read (argumentText items).toList = .ok (.list items) := by
      rw [read_eq]
      exact hsame _ _ hlimit
    refine ⟨argumentList_eq_ok_iff.2 ⟨items, hagain, rfl⟩, ⟨items, hread, hagain⟩, hsame, ?_⟩
    rw [toList_argumentText]
    exact printable_of_normal (printable_nil.cons (by decide)) (normal_of_readWithin hlimit hwhole)
  · intro fields
    obtain ⟨sorted, hrecord, hsorted, _, hlast⟩ := exists_ofFields fields
    exact ⟨sorted, hrecord, hsorted, hlast⟩

/-- A text on two lines with the numbers at both limits, and a record with keys out of order, one of
them twice, a control character and two surrogates. -/
theorem argumentList_normal_limits :
    argumentList
      ("[18446744073709551615,-9223372036854775808,\n\x7b\"b\":1,\"a\":" ++
        "\"\\u0001\\ud83d\\ude00\",\"b\":0\x7d]") =
      .ok ("[18446744073709551615, -9223372036854775808, \x7b\"a\":" ++
        "\"\\u0001😀\",\"b\":0\x7d]") ∧
    argumentList
      ("[18446744073709551615, -9223372036854775808, \x7b\"a\":" ++
        "\"\\u0001😀\",\"b\":0\x7d]") =
      .ok ("[18446744073709551615, -9223372036854775808, \x7b\"a\":" ++
        "\"\\u0001😀\",\"b\":0\x7d]") := by
  have hresult : argumentList
      ("[18446744073709551615,-9223372036854775808,\n\x7b\"b\":1,\"a\":" ++
        "\"\\u0001\\ud83d\\ude00\",\"b\":0\x7d]") =
      .ok ("[18446744073709551615, -9223372036854775808, \x7b\"a\":" ++
        "\"\\u0001😀\",\"b\":0\x7d]") := by cbv
  have hnumerals : numerals
      ("[18446744073709551615,-9223372036854775808,\n\x7b\"b\":1,\"a\":" ++
        "\"\\u0001\\ud83d\\ude00\",\"b\":0\x7d]").toList =
      ["18446744073709551615".toList, "-9223372036854775808".toList, ['1'], ['0']] := by cbv
  have hhigh : IsWhole "18446744073709551615".toList :=
    ⟨_, by decide, List.all_eq_true.1 rfl, .inl ⟨rfl, by decide⟩⟩
  have hlow : IsWhole "-9223372036854775808".toList :=
    ⟨"9223372036854775808".toList, by decide, List.all_eq_true.1 rfl,
      .inr ⟨rfl, by decide, by decide⟩⟩
  have hone : IsWhole ['1'] :=
    ⟨_, by decide, List.all_eq_true.1 rfl, .inl ⟨rfl, by decide⟩⟩
  have hzero : IsWhole ['0'] :=
    ⟨_, by decide, List.all_eq_true.1 rfl, .inl ⟨rfl, by decide⟩⟩
  refine ⟨hresult, (argumentList_normal.1 _ _ hresult ?_).1⟩
  unfold OnlyWhole
  rw [hnumerals]
  simpa using ⟨hhigh, hlow, hone, hzero⟩

end SchemaContract
