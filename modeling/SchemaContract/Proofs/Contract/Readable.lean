import SchemaContract.Proofs.Contract.Run
import SchemaContract.Proofs.Schema.WellFormed

/-!
Unique readability of types. A type that is grouped by precedence is determined by its text, and so
is the place where its text ends, provided that what follows does not go on with the type. What goes
on with a type depends on the level at which it is read.
-/
namespace SchemaContract

/-- The characters of a type. -/
def Expression.letters (e : Expression) : List Char := e.plainType.toList

theorem Expression.plainTypes_eq_map (es : List Expression) :
    Expression.plainTypes es = es.map Expression.plainType := by
  induction es with
  | nil => rfl
  | cons e es ih =>
    rw [List.map_cons, ← ih]
    unfold plainTypes
    simp only [Expression.typeTexts, StateT.run_bind, run_typeText none, run_typeTexts,
      slotClauses_none, ClauseBuffer.append_nil]
    rfl

namespace Expression

theorem letters_reference (name : String) :
    (Expression.reference name).letters = (Primitive.typeName name).toList := by
  unfold letters plainType
  rw [typeText, Slot.run_typeOfName]

theorem letters_array (e : Expression) :
    (Expression.array e).letters = "List<".toList ++ (e.letters ++ ['>']) := by
  unfold letters
  have h : (Expression.array e).plainType = "List<" ++ e.plainType ++ ">" := by
    unfold plainType
    rw [typeText]
    rfl
  rw [h, String.toList_append, String.toList_append, List.append_assoc]
  rfl

/-- Options with a separator between them. -/
def lettersBetween (separator : String) (es : List Expression) : List Char :=
  separator.toList.intercalate (es.map letters)

theorem toList_intercalate_plainTypes (separator : String) (es : List Expression) :
    (separator.intercalate (plainTypes es)).toList = lettersBetween separator es := by
  unfold lettersBetween letters
  rw [plainTypes_eq_map, String.toList_intercalate, List.map_map]
  rfl

theorem letters_tuple (es : List Expression) :
    (Expression.tuple es).letters = '[' :: (lettersBetween ", " es ++ [']']) := by
  have h : (Expression.tuple es).plainType = "[" ++ ", ".intercalate (plainTypes es) ++ "]" := by
    unfold plainType
    rw [typeText]
    rfl
  unfold letters
  rw [h, String.toList_append, String.toList_append, toList_intercalate_plainTypes]
  rfl

theorem letters_union (es : List Expression) :
    (Expression.union es).letters = lettersBetween " | " es := by
  rw [← toList_intercalate_plainTypes]
  unfold letters plainType
  rw [typeText]
  rfl

theorem letters_intersection (es : List Expression) :
    (Expression.intersection es).letters = lettersBetween " & " es := by
  rw [← toList_intercalate_plainTypes]
  unfold letters plainType
  rw [typeText]
  rfl

@[simp] theorem lettersBetween_singleton (separator : String) (e : Expression) :
    lettersBetween separator [e] = e.letters :=
  List.intercalate_singleton

theorem lettersBetween_cons_cons (separator : String) (e e' : Expression) (es : List Expression) :
    lettersBetween separator (e :: e' :: es) =
      e.letters ++ (separator.toList ++ lettersBetween separator (e' :: es)) := by
  unfold lettersBetween
  rw [List.map_cons, List.map_cons, List.intercalate_cons_cons, List.append_assoc]

theorem lettersBetween_append (separator : String) {es fs : List Expression} (he : es ≠ [])
    (hf : fs ≠ []) :
    lettersBetween separator (es ++ fs) =
      lettersBetween separator es ++ (separator.toList ++ lettersBetween separator fs) := by
  induction es with
  | nil => exact absurd rfl he
  | cons e es ih =>
    cases es with
    | nil =>
      obtain ⟨f, fs, rfl⟩ := List.exists_cons_of_ne_nil hf
      rw [lettersBetween_singleton]
      exact lettersBetween_cons_cons separator e f fs
    | cons e' es =>
      rw [List.cons_append, List.cons_append, lettersBetween_cons_cons,
        lettersBetween_cons_cons, List.append_assoc, List.append_assoc]
      rw [List.cons_append] at ih
      rw [ih (by simp)]

theorem lettersBetween_map_congr (separator : String) {f : Expression → Expression}
    {es : List Expression} (h : ∀ e ∈ es, (f e).letters = e.letters) :
    lettersBetween separator (es.map f) = lettersBetween separator es := by
  have hm : (es.map f).map letters = es.map letters := by
    rw [List.map_map]
    exact List.map_congr_left h
  unfold lettersBetween
  rw [hm]

/-- Options begin with the first of them. -/
theorem lettersBetween_begins (separator : String) {es : List Expression} (h : es ≠ []) :
    ∃ e ∈ es, ∃ s, lettersBetween separator es = e.letters ++ s := by
  match es, h with
  | [e], _ => exact ⟨e, List.mem_cons_self, [], by simp⟩
  | e :: e' :: es, _ => exact ⟨e, List.mem_cons_self, _, lettersBetween_cons_cons _ _ _ _⟩

end Expression

/-- One option stands for itself. -/
def Expression.unionOfAll : List Expression → Expression
  | [e] => e
  | es => .union es

/-- One option stands for itself. -/
def Expression.intersectionOfAll : List Expression → Expression
  | [e] => e
  | es => .intersection es

theorem Expression.letters_unionOfAll (es : List Expression) :
    (unionOfAll es).letters = lettersBetween " | " es := by
  match es with
  | [] => exact letters_union []
  | [e] => exact (lettersBetween_singleton _ e).symm
  | e :: e' :: es => exact letters_union (e :: e' :: es)

theorem Expression.letters_intersectionOfAll (es : List Expression) :
    (intersectionOfAll es).letters = lettersBetween " & " es := by
  match es with
  | [] => exact letters_intersection []
  | [e] => exact (lettersBetween_singleton _ e).symm
  | e :: e' :: es => exact letters_intersection (e :: e' :: es)

/-- The levels at which types are read, from the tightest. -/
inductive Level where
  | operand
  | intersection
  | union

namespace Level

def separators : Level → List String
  | operand => []
  | intersection => [" & "]
  | union => [" & ", " | "]

/-- A type of the level that stands before these characters ends there. -/
def Ends (l : Level) (r : List Char) : Prop :=
  (∀ c ∈ r.head?, isNameRest c = false ∧ c ≠ '<') ∧
    ∀ separator ∈ l.separators, ¬ separator.toList <+: r

theorem ends_nil (l : Level) : l.Ends [] := by
  refine ⟨by simp, ?_⟩
  cases l <;> simp [separators]

theorem ends_cons (l : Level) {c : Char} (r : List Char) (hc : isNameRest c = false)
    (hl : c ≠ '<') (hb : c ≠ ' ') : l.Ends (c :: r) := by
  refine ⟨by simp [hc, hl], ?_⟩
  cases l <;> simp [separators, hb.symm]

theorem operand_ends_ampersand (r : List Char) : operand.Ends (" & ".toList ++ r) := by
  refine ⟨?_, by simp [separators]⟩
  intro c hc
  obtain rfl : ' ' = c := by simpa using hc
  decide

theorem intersection_ends_pipe (r : List Char) : intersection.Ends (" | ".toList ++ r) := by
  refine ⟨?_, by simp [separators]⟩
  intro c hc
  obtain rfl : ' ' = c := by simpa using hc
  decide

theorem Ends.operand {l : Level} {r : List Char} (h : l.Ends r) : operand.Ends r :=
  ⟨h.1, by simp [separators]⟩

theorem Ends.intersection {r : List Char} (h : union.Ends r) : intersection.Ends r :=
  ⟨h.1, fun s hs => h.2 s (by simp_all [separators])⟩

end Level

/-- Types that are grouped as precedence has it: at most intersections in a union, at most operands
in an intersection. -/
inductive Grouped : Level → Expression → Prop where
  | name {n : String} :
      isIdentifier n = true → Primitive.typeName n = n → Grouped .operand (.reference n)
  | array {e : Expression} : Grouped .union e → Grouped .operand (.array e)
  | tuple {es : List Expression} :
      (∀ e ∈ es, Grouped .union e) → Grouped .operand (.tuple es)
  | intersection {es : List Expression} :
      es ≠ [] → (∀ e ∈ es, Grouped .operand e) → Grouped .intersection (.intersectionOfAll es)
  | union {es : List Expression} :
      es ≠ [] → (∀ e ∈ es, Grouped .intersection e) → Grouped .union (.unionOfAll es)

/-- Words are read as far as they go. -/
theorem word_unique {w w' r r' : List Char} (hw : ∀ c ∈ w, isNameRest c = true)
    (hw' : ∀ c ∈ w', isNameRest c = true) (hr : ∀ c ∈ r.head?, isNameRest c = false)
    (hr' : ∀ c ∈ r'.head?, isNameRest c = false) (h : w ++ r = w' ++ r') : w = w' ∧ r = r' := by
  induction w generalizing w' with
  | nil =>
    cases w' with
    | nil => exact ⟨rfl, h⟩
    | cons c w' =>
      rw [List.nil_append] at h
      simp [h, hw' c List.mem_cons_self] at hr
  | cons c w ih =>
    cases w' with
    | nil =>
      rw [List.nil_append] at h
      simp [← h, hw c List.mem_cons_self] at hr'
    | cons c' w' =>
      obtain ⟨rfl, ht⟩ := List.cons_eq_cons.1 h
      obtain ⟨rfl, rfl⟩ := ih (fun d hd => hw d (List.mem_cons_of_mem c hd))
        (fun d hd => hw' d (List.mem_cons_of_mem c hd)) ht
      exact ⟨rfl, rfl⟩

/-- Options are determined by their texts if each of them is and the separator ends it. -/
theorem lettersBetween_unique {l : Level} {separator : String} {es es' : List Expression}
    {r r' : List Char}
    (h : ∀ e ∈ es, ∀ e' ∈ es', ∀ r r', l.Ends r → l.Ends r' →
      e.letters ++ r = e'.letters ++ r' → e = e' ∧ r = r')
    (hs : ∀ r, l.Ends (separator.toList ++ r)) (hr : l.Ends r) (hr' : l.Ends r')
    (hn : ¬ separator.toList <+: r) (hn' : ¬ separator.toList <+: r')
    (hes : es ≠ []) (hes' : es' ≠ [])
    (heq : Expression.lettersBetween separator es ++ r =
      Expression.lettersBetween separator es' ++ r') : es = es' ∧ r = r' := by
  induction es generalizing es' with
  | nil => exact absurd rfl hes
  | cons e es ih =>
    cases es' with
    | nil => exact absurd rfl hes'
    | cons e' es' =>
      have hhead := h e List.mem_cons_self e' List.mem_cons_self
      cases es with
      | nil =>
        cases es' with
        | nil =>
          simp only [Expression.lettersBetween_singleton] at heq
          obtain ⟨rfl, rfl⟩ := hhead _ _ hr hr' heq
          exact ⟨rfl, rfl⟩
        | cons f' es' =>
          rw [Expression.lettersBetween_singleton, Expression.lettersBetween_cons_cons,
            List.append_assoc, List.append_assoc] at heq
          obtain ⟨-, he⟩ := hhead _ _ hr (hs _) heq
          exact absurd (he ▸ List.prefix_append _ _) hn
      | cons f es =>
        cases es' with
        | nil =>
          rw [Expression.lettersBetween_singleton, Expression.lettersBetween_cons_cons,
            List.append_assoc, List.append_assoc] at heq
          obtain ⟨-, he⟩ := hhead _ _ (hs _) hr' heq
          exact absurd (he ▸ List.prefix_append _ _) hn'
        | cons f' es' =>
          rw [Expression.lettersBetween_cons_cons, Expression.lettersBetween_cons_cons,
            List.append_assoc, List.append_assoc, List.append_assoc, List.append_assoc] at heq
          obtain ⟨rfl, he⟩ := hhead _ _ (hs _) (hs _) heq
          have htail := List.append_cancel_left he
          obtain ⟨he', rfl⟩ := ih (fun a ha b hb => h a (List.mem_cons_of_mem e ha) b
            (List.mem_cons_of_mem e hb)) (by simp) (by simp) htail
          exact ⟨congrArg (e :: ·) he', rfl⟩

theorem isNameRest_of_isIdentifier {n : String} (h : isIdentifier n = true) :
    ∀ c ∈ n.toList, isNameRest c = true := by
  unfold isIdentifier at h
  intro c hc
  cases hn : n.toList with
  | nil =>
    rw [hn] at hc
    cases hc
  | cons d ds =>
    simp only [hn, Bool.and_eq_true] at h
    obtain ⟨⟨⟨hd, hds⟩, -⟩, -⟩ := h
    rw [hn] at hc
    rcases List.mem_cons.1 hc with rfl | hc
    · unfold isNameStart at hd
      unfold isNameRest
      simp only [Char.isAlphanum]
      grind
    · exact List.all_eq_true.1 hds c hc

theorem toList_ne_nil_of_isIdentifier {n : String} (h : isIdentifier n = true) :
    n.toList ≠ [] := by
  intro hn
  simp [isIdentifier, hn] at h

theorem letters_array_append (e : Expression) (r : List Char) :
    (Expression.array e).letters ++ r = "List".toList ++ '<' :: (e.letters ++ '>' :: r) := by
  rw [Expression.letters_array, List.append_assoc, List.append_assoc]
  rfl

theorem letters_tuple_append (es : List Expression) (r : List Char) :
    (Expression.tuple es).letters ++ r =
      '[' :: (Expression.lettersBetween ", " es ++ ']' :: r) := by
  rw [Expression.letters_tuple, List.cons_append, List.append_assoc]
  rfl

section Operand

variable {n n' : String} {e : Expression} {es : List Expression} {r r' : List Char}

theorem name_unique (hn : isIdentifier n = true) (hn' : isIdentifier n' = true)
    (hr : Level.operand.Ends r) (hr' : Level.operand.Ends r')
    (h : n.toList ++ r = n'.toList ++ r') : n = n' ∧ r = r' := by
  obtain ⟨hw, rfl⟩ := word_unique (isNameRest_of_isIdentifier hn) (isNameRest_of_isIdentifier hn')
    (fun c hc => (hr.1 c hc).1) (fun c hc => (hr'.1 c hc).1) h
  exact ⟨String.toList_inj.1 hw, rfl⟩

theorem isNameRest_of_mem_list : ∀ c ∈ "List".toList, isNameRest c = true := by
  intro c hc
  simp only [String.reduceToList, List.mem_cons, List.not_mem_nil, or_false] at hc
  rcases hc with rfl | rfl | rfl | rfl <;> rfl

theorem name_ne_array (hn : isIdentifier n = true) (hr : Level.operand.Ends r) :
    n.toList ++ r ≠ (Expression.array e).letters ++ r' := by
  intro h
  rw [letters_array_append] at h
  obtain ⟨-, hr'⟩ := word_unique (isNameRest_of_isIdentifier hn) isNameRest_of_mem_list
    (fun c hc => (hr.1 c hc).1) (by simp; decide) h
  rw [hr'] at hr
  simpa using hr.1 '<' (by simp)

theorem name_ne_tuple (hn : isIdentifier n = true) :
    n.toList ++ r ≠ (Expression.tuple es).letters ++ r' := by
  intro h
  rw [letters_tuple_append] at h
  cases hl : n.toList with
  | nil => exact toList_ne_nil_of_isIdentifier hn hl
  | cons c cs =>
    rw [hl, List.cons_append] at h
    obtain ⟨rfl, -⟩ := List.cons_eq_cons.1 h
    have hc := isNameRest_of_isIdentifier hn '[' (by simp [hl])
    exact absurd hc (by decide)

theorem array_ne_tuple :
    (Expression.array e).letters ++ r ≠ (Expression.tuple es).letters ++ r' := by
  intro h
  rw [letters_array_append, letters_tuple_append] at h
  exact absurd (List.cons_eq_cons.1 h).1 (by decide)

end Operand

/-- A closing bracket begins no type. -/
theorem Grouped.not_begins_bracket {l : Level} {e : Expression} (h : Grouped l e)
    (r : List Char) : ∃ c cs, e.letters ++ r = c :: cs ∧ c ≠ ']' := by
  induction h generalizing r with
  | @name n hn ht =>
    rw [Expression.letters_reference, ht]
    cases hl : n.toList with
    | nil => exact absurd hl (toList_ne_nil_of_isIdentifier hn)
    | cons c cs =>
      refine ⟨c, cs ++ r, rfl, ?_⟩
      rintro rfl
      have hc := isNameRest_of_isIdentifier hn ']' (by simp [hl])
      exact absurd hc (by decide)
  | array _ _ => exact ⟨'L', _, letters_array_append _ _, by decide⟩
  | tuple _ _ => exact ⟨'[', _, letters_tuple_append _ _, by decide⟩
  | intersection hne _ ih =>
    obtain ⟨e, he, s, hs⟩ := Expression.lettersBetween_begins " & " hne
    rw [Expression.letters_intersectionOfAll, hs, List.append_assoc]
    exact ih e he _
  | union hne _ ih =>
    obtain ⟨e, he, s, hs⟩ := Expression.lettersBetween_begins " | " hne
    rw [Expression.letters_unionOfAll, hs, List.append_assoc]
    exact ih e he _

theorem Grouped.lettersBetween_ne_bracket {l : Level} {es : List Expression} (hes : es ≠ [])
    (h : ∀ e ∈ es, Grouped l e) (separator : String) (r s : List Char) :
    Expression.lettersBetween separator es ++ s ≠ ']' :: r := by
  intro heq
  obtain ⟨e, he, t, ht⟩ := Expression.lettersBetween_begins separator hes
  obtain ⟨c, cs, hc, hne⟩ := (h e he).not_begins_bracket (t ++ s)
  rw [ht, List.append_assoc, hc] at heq
  exact hne (List.cons_eq_cons.1 heq).1

/-- A grouped type and the place where it ends are determined by the text. -/
theorem Grouped.unique {l : Level} {e e' : Expression} {r r' : List Char} (h : Grouped l e)
    (h' : Grouped l e') (hr : l.Ends r) (hr' : l.Ends r')
    (heq : e.letters ++ r = e'.letters ++ r') : e = e' ∧ r = r' := by
  induction h generalizing e' r r' with
  | @name n hn ht =>
    cases h' with
    | @name n' hn' ht' =>
      rw [Expression.letters_reference, Expression.letters_reference, ht, ht'] at heq
      obtain ⟨rfl, rfl⟩ := name_unique hn hn' hr hr' heq
      exact ⟨rfl, rfl⟩
    | array _ =>
      rw [Expression.letters_reference, ht] at heq
      exact absurd heq (name_ne_array hn hr)
    | tuple _ =>
      rw [Expression.letters_reference, ht] at heq
      exact absurd heq (name_ne_tuple hn)
  | array _ ih =>
    cases h' with
    | name hn' ht' =>
      rw [Expression.letters_reference (_ : String), ht'] at heq
      exact absurd heq.symm (name_ne_array hn' hr')
    | array he' =>
      rw [letters_array_append, letters_array_append] at heq
      have hinner := List.append_cancel_left heq
      obtain ⟨rfl, ht⟩ := ih he' (Level.ends_cons _ _ (by decide) (by decide) (by decide))
        (Level.ends_cons _ _ (by decide) (by decide) (by decide)) (List.cons_eq_cons.1 hinner).2
      exact ⟨rfl, (List.cons_eq_cons.1 ht).2⟩
    | tuple _ => exact absurd heq array_ne_tuple
  | @tuple es hes ih =>
    cases h' with
    | name hn' ht' =>
      rw [Expression.letters_reference (_ : String), ht'] at heq
      exact absurd heq.symm (name_ne_tuple hn')
    | array _ => exact absurd heq.symm array_ne_tuple
    | @tuple es' hes' =>
      rw [letters_tuple_append, letters_tuple_append] at heq
      have hinner := (List.cons_eq_cons.1 heq).2
      have hends (r : List Char) : Level.union.Ends (']' :: r) :=
        Level.ends_cons _ _ (by decide) (by decide) (by decide)
      by_cases hn : es = []
      · by_cases hn' : es' = []
        · rw [hn, hn'] at hinner
          rw [hn, hn']
          exact ⟨rfl, (List.cons_eq_cons.1 hinner).2⟩
        · rw [hn] at hinner
          exact absurd hinner.symm (lettersBetween_ne_bracket hn' hes' _ _ _)
      · by_cases hn' : es' = []
        · rw [hn'] at hinner
          exact absurd hinner (lettersBetween_ne_bracket hn hes _ _ _)
        · obtain ⟨rfl, ht⟩ := lettersBetween_unique
            (fun e he e' he' r r' => ih e he (hes' e' he'))
            (fun r => Level.ends_cons _ _ (by decide) (by decide) (by decide))
            (hends r) (hends r') (by simp) (by simp) hn hn' hinner
          exact ⟨rfl, (List.cons_eq_cons.1 ht).2⟩
  | @intersection es hne hes ih =>
    cases h' with
    | @intersection es' hne' hes' =>
      rw [Expression.letters_intersectionOfAll, Expression.letters_intersectionOfAll] at heq
      obtain ⟨rfl, rfl⟩ := lettersBetween_unique (fun e he e' he' r r' => ih e he (hes' e' he'))
        Level.operand_ends_ampersand hr.operand hr'.operand
        (hr.2 " & " (by simp [Level.separators])) (hr'.2 " & " (by simp [Level.separators]))
        hne hne' heq
      exact ⟨rfl, rfl⟩
  | @union es hne hes ih =>
    cases h' with
    | @union es' hne' hes' =>
      rw [Expression.letters_unionOfAll, Expression.letters_unionOfAll] at heq
      obtain ⟨rfl, rfl⟩ := lettersBetween_unique (fun e he e' he' r r' => ih e he (hes' e' he'))
        Level.intersection_ends_pipe hr.intersection hr'.intersection
        (hr.2 " | " (by simp [Level.separators])) (hr'.2 " | " (by simp [Level.separators]))
        hne hne' heq
      exact ⟨rfl, rfl⟩

end SchemaContract
