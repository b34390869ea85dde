import Mathlib.Data.List.Pairwise
import SchemaContract.Proofs.Shell.Lines
import SchemaContract.Shell.Field

/-!
What patterns describe. A pattern fits a text that falls into one part for each of its items; what a
script cuts off from a value is the longest or the shortest part that a pattern fits.
-/
namespace SchemaContract.Shell
namespace Pattern

/-- That a text falls into parts, one for each item of a pattern. -/
inductive Fits : Pattern → Chars → Prop
  | nil : Fits [] []
  | char {items : Pattern} {cs : Chars} (c : Char) (rest : Fits items cs) :
      Fits (.char c :: items) (c :: cs)
  | any {items : Pattern} {cs : Chars} (c : Char) (rest : Fits items cs) :
      Fits (.any :: items) (c :: cs)
  | oneOf {items : Pattern} {cs : Chars} {k : CharClass} {c : Char} (h : k.contains c = true)
      (rest : Fits items cs) : Fits (.oneOf k :: items) (c :: cs)
  | run {items : Pattern} {cs : Chars} (front : Chars) (rest : Fits items cs) :
      Fits (.run :: items) (front ++ cs)

theorem mem_suffixes {α : Type} {xs ys : List α} : ys ∈ suffixes xs ↔ ys <:+ xs := by
  induction xs with
  | nil => simp [suffixes]
  | cons x xs ih => rw [suffixes, List.mem_cons, ih, List.suffix_cons_iff]

theorem isMatch_iff {items : Pattern} {cs : Chars} : isMatch items cs = true ↔ Fits items cs := by
  induction items generalizing cs with
  | nil =>
    rw [isMatch, List.isEmpty_iff]
    constructor
    · rintro rfl
      exact .nil
    · rintro ⟨⟩
      rfl
  | cons item items ih =>
    constructor
    · intro h
      cases item with
      | run =>
        rw [isMatch] at h
        obtain ⟨rest, hmem, hrest⟩ := List.any_eq_true.1 h
        obtain ⟨front, rfl⟩ := mem_suffixes.1 hmem
        exact .run front (ih.1 hrest)
      | char c =>
        cases cs with
        | nil => cases h
        | cons d cs =>
          obtain ⟨heq, hrest⟩ := Bool.and_eq_true_iff.1 h
          rw [← eq_of_beq heq]
          exact .char c (ih.1 hrest)
      | any =>
        cases cs with
        | nil => cases h
        | cons c cs => exact .any c (ih.1 h)
      | oneOf k =>
        cases cs with
        | nil => cases h
        | cons c cs =>
          obtain ⟨hclass, hrest⟩ := Bool.and_eq_true_iff.1 h
          exact .oneOf hclass (ih.1 hrest)
    · intro h
      cases h with
      | char c hrest => simp [isMatch, ih.2 hrest]
      | any c hrest => simp [isMatch, ih.2 hrest]
      | oneOf hclass hrest => simp [isMatch, hclass, ih.2 hrest]
      | run front hrest =>
        rw [isMatch]
        exact List.any_eq_true.2 ⟨_, mem_suffixes.2 (List.suffix_append _ _), ih.2 hrest⟩

theorem ends_of_filter_range {q : Nat → Bool} {m n : Nat} (hn : n ≤ m) (h : q n = true) :
    ∃ first last, ((List.range (m + 1)).filter q).head? = some first ∧
      ((List.range (m + 1)).filter q).getLast? = some last ∧
      q first = true ∧ q last = true ∧ first ≤ n ∧ n ≤ last := by
  have hmem : n ∈ (List.range (m + 1)).filter q :=
    List.mem_filter.2 ⟨List.mem_range.2 (Nat.lt_succ_of_le hn), h⟩
  have hsorted : ((List.range (m + 1)).filter q).Pairwise (· ≤ ·) :=
    List.pairwise_le_range.filter q
  have hne := List.ne_nil_of_mem hmem
  exact ⟨_, _, List.head?_eq_some_head hne, List.getLast?_eq_some_getLast hne,
    (List.mem_filter.1 (List.head_mem hne)).2, (List.mem_filter.1 (List.getLast_mem hne)).2,
    hsorted.rel_head hmem, hsorted.rel_getLast hmem⟩

variable {items : Pattern} {cs : Chars} {n : Nat}

/-- What is cut off at the front fits, and is as long or as short as there is. -/
theorem frontLength_fits (hn : n ≤ cs.length) (h : Fits items (cs.take n)) :
    Fits items (cs.take (frontLength items true cs)) ∧
      Fits items (cs.take (frontLength items false cs)) ∧
      frontLength items false cs ≤ n ∧ n ≤ frontLength items true cs := by
  obtain ⟨first, last, hhead, hlast, hfirst, hfits, hle, hge⟩ :=
    ends_of_filter_range (q := fun n => isMatch items (cs.take n)) hn (isMatch_iff.2 h)
  have hshortest : frontLength items false cs = first := congrArg (·.getD 0) hhead
  have hlongest : frontLength items true cs = last := congrArg (·.getD 0) hlast
  rw [hshortest, hlongest]
  exact ⟨isMatch_iff.1 hfits, isMatch_iff.1 hfirst, hle, hge⟩

/-- What is cut off at the end fits, and is as long or as short as there is. -/
theorem backStart_fits (hn : n ≤ cs.length) (h : Fits items (cs.drop n)) :
    Fits items (cs.drop (backStart items true cs)) ∧
      Fits items (cs.drop (backStart items false cs)) ∧
      backStart items true cs ≤ n ∧ n ≤ backStart items false cs := by
  obtain ⟨first, last, hhead, hlast, hfirst, hfits, hle, hge⟩ :=
    ends_of_filter_range (q := fun n => isMatch items (cs.drop n)) hn (isMatch_iff.2 h)
  have hlongest : backStart items true cs = first := congrArg (·.getD cs.length) hhead
  have hshortest : backStart items false cs = last := congrArg (·.getD cs.length) hlast
  rw [hshortest, hlongest]
  exact ⟨isMatch_iff.1 hfirst, isMatch_iff.1 hfits, hle, hge⟩

theorem fits_quoted {letters : List Letter} (h : ∀ l ∈ letters, l.quoted = true) {cs : Chars} :
    Fits (ofWord letters) cs ↔ cs = letters.map Letter.char := by
  unfold ofWord
  induction letters generalizing cs with
  | nil =>
    constructor
    · rintro ⟨⟩
      rfl
    · rintro rfl
      exact .nil
  | cons l letters ih =>
    have htail := @ih fun l' hmem => h l' (List.mem_cons_of_mem _ hmem)
    rw [List.length_cons, ofLetters, if_pos (h l List.mem_cons_self)]
    constructor
    · rintro (_ | ⟨_, hrest⟩)
      rw [htail.1 hrest, List.map_cons]
    · rintro rfl
      exact .char _ (htail.2 rfl)

end Pattern

variable (fs : FileSystem) (field : Field)

theorem filesOf_exists :
    filesOf fs field = [field.chars] ∨ ∀ path ∈ filesOf fs field, existsAt fs path = true := by
  unfold filesOf
  split
  · split
    · exact .inl rfl
    · right
      intro path hpath
      rw [List.mem_mergeSort] at hpath
      exact (List.mem_filter.1 hpath).2
  · exact .inl rfl

theorem filesOf_sorted :
    (filesOf fs field).Pairwise fun path next => Chars.isAtMost path next = true := by
  have htotal (a b : Chars) : (Chars.isAtMost a b || Chars.isAtMost b a) = true :=
    Bool.or_eq_true_iff.2 (Chars.isAtMost_total a b)
  have htrans (a b c : Chars) := @Chars.isAtMost_trans a b c
  unfold filesOf
  split
  · split
    · exact List.pairwise_singleton _ _
    · exact List.pairwise_mergeSort htrans htotal _
  · exact List.pairwise_singleton _ _

end SchemaContract.Shell
