import Mathlib.Data.List.Chain
import SchemaContract.Proofs.Text.Utf8
import SchemaContract.Shell.Utility.Lines

/-!
Texts of scripts in parts and lines. Nothing is lost where a text is cut up, sorted lines are the
lines that were given, and runs of equal lines are as long as they are said to be.
-/
namespace SchemaContract.Shell
namespace Chars

theorem byte_of_char (b : UInt8) : UInt8.ofNat (Char.ofNat b.toNat).toNat = b := by
  have valid : b.toNat.isValidChar := .inl (Nat.lt_trans b.toNat_lt (by decide))
  have code : (Char.ofNat b.toNat).toNat = b.toNat := by
    rw [Char.ofNat, dif_pos valid]
    rfl
  rw [code, UInt8.ofNat_toNat]

theorem bytes_ofBytes (bytes : List UInt8) : (ofBytes bytes).bytes = bytes := by
  simp [ofBytes, Chars.bytes, Function.comp_def, byte_of_char]

/-- A text that is handed to a script is still that text. -/
theorem text_ofText (s : String) : (ofText s).text = s := by
  have hcharacters : (s.toList.map some).map (·.getD '\uFFFD') = s.toList := by
    rw [List.map_map]
    exact List.map_id'' (fun _ => rfl) _
  unfold text ofText Text.ofBytesLossy Text.bytes
  rw [bytes_ofBytes, Text.decode_bytes, hcharacters, String.ofList_toList]

theorem split_ne_nil (separator : Char) (cs : Chars) : split separator cs ≠ [] := by
  fun_induction split separator cs <;> simp

theorem join_split (separator : Char) (cs : Chars) :
    join [separator] (split separator cs) = cs := by
  induction cs with
  | nil => rfl
  | cons c cs ih =>
    obtain ⟨part, parts, hs⟩ := List.exists_cons_of_ne_nil (split_ne_nil separator cs)
    by_cases h : c = separator
    · simp only [split, if_pos h, hs, join, List.nil_append, List.singleton_append]
      rw [← hs, ih, h]
    · simp only [split, if_neg h, hs]
      rw [hs] at ih
      cases parts with
      | nil => simpa [join] using ih
      | cons other others => simpa [join] using ih

theorem flatten_lines (cs : Chars) : (lines cs).flatten = cs := by
  induction cs with
  | nil => rfl
  | cons c cs ih =>
    by_cases h : c = '\n'
    · simp [lines, h, ih]
    · cases hl : lines cs with
      | nil => simp_all [lines]
      | cons line others =>
        simp only [lines, h, if_false, hl]
        simpa [hl] using ih

/-- A line with the newline that ends it. -/
def IsLine (line : Chars) : Prop :=
  ∃ cs : Chars, '\n' ∉ cs ∧ line = cs ++ ['\n']

theorem lines_append {line : Chars} (h : IsLine line) (cs : Chars) :
    lines (line ++ cs) = line :: lines cs := by
  obtain ⟨inside, hinside, rfl⟩ := h
  induction inside with
  | nil => simp [lines]
  | cons c inside ih =>
    rw [List.mem_cons, not_or] at hinside
    rw [List.cons_append, List.cons_append, lines, if_neg (Ne.symm hinside.1), ih hinside.2]

theorem lines_flatten {parts : List Chars} (h : ∀ line ∈ parts, IsLine line) :
    lines parts.flatten = parts := by
  induction parts with
  | nil => rfl
  | cons line parts ih =>
    rw [List.flatten_cons, lines_append (h line List.mem_cons_self),
      ih fun line hline => h line (List.mem_cons_of_mem _ hline)]

/-- The last lines first, and so again: as long as each line ends, that is the text itself. -/
theorem reverse_lines_twice {cs : Chars} (h : ∀ line ∈ lines cs, IsLine line) :
    (lines (lines cs).reverse.flatten).reverse.flatten = cs := by
  have hreversed : ∀ line ∈ (lines cs).reverse, IsLine line :=
    fun line hline => h line (List.mem_reverse.1 hline)
  rw [lines_flatten hreversed, List.reverse_reverse, flatten_lines]

theorem isAtMost_total (as bs : Chars) : isAtMost as bs = true ∨ isAtMost bs as = true := by
  induction as generalizing bs with
  | nil => exact .inl rfl
  | cons a as ih =>
    cases bs with
    | nil => exact .inr rfl
    | cons b bs =>
      by_cases h : a = b
      · simpa [isAtMost, h] using ih bs
      · have hne : a.toNat ≠ b.toNat := fun heq => h (Char.toNat_inj.1 heq)
        simp only [isAtMost, if_neg h, if_neg (Ne.symm h), decide_eq_true_eq]
        omega

theorem isAtMost_trans {as bs cs : Chars} (h : isAtMost as bs = true)
    (h' : isAtMost bs cs = true) : isAtMost as cs = true := by
  induction as generalizing bs cs with
  | nil => rfl
  | cons a as ih =>
    cases bs with
    | nil => cases h
    | cons b bs =>
      cases cs with
      | nil => cases h'
      | cons c cs =>
        rw [isAtMost] at h h' ⊢
        by_cases hab : a = b
        · subst hab
          by_cases hac : a = c
          · rw [if_pos rfl] at h
            rw [if_pos hac] at h' ⊢
            exact ih h h'
          · rw [if_neg hac] at h' ⊢
            exact h'
        · rw [if_neg hab, decide_eq_true_eq] at h
          by_cases hbc : b = c
          · subst hbc
            rw [if_neg hab, decide_eq_true_eq]
            exact h
          · rw [if_neg hbc, decide_eq_true_eq] at h'
            have hac : a ≠ c := by
              rintro rfl
              omega
            rw [if_neg hac, decide_eq_true_eq]
            omega

end Chars

namespace Utility

def NumbersAtMost (a b : Chars) : Prop :=
  leadingNumber a < leadingNumber b ∨
    leadingNumber a = leadingNumber b ∧ Chars.isAtMost a b = true

theorem NumbersAtMost.total (a b : Chars) : NumbersAtMost a b ∨ NumbersAtMost b a := by
  rcases Int.lt_trichotomy (leadingNumber a) (leadingNumber b) with hlt | heq | hgt
  · exact .inl (.inl hlt)
  · exact (Chars.isAtMost_total a b).imp (.inr ⟨heq, ·⟩) (.inr ⟨heq.symm, ·⟩)
  · exact .inr (.inl hgt)

theorem NumbersAtMost.trans {a b c : Chars} (h : NumbersAtMost a b) (h' : NumbersAtMost b c) :
    NumbersAtMost a c := by
  obtain hlt | ⟨heq, hchars⟩ := h <;> obtain hlt' | ⟨heq', hchars'⟩ := h'
  · exact .inl (Int.lt_trans hlt hlt')
  · exact .inl (heq' ▸ hlt)
  · exact .inl (heq ▸ hlt')
  · exact .inr ⟨heq.trans heq', Chars.isAtMost_trans hchars hchars'⟩

/-- The order that the options of `sort` ask for, before it is turned round. -/
def Precedes (p : Parsed) (a b : Chars) : Prop :=
  if p.has 'n' = true then
    if p.has 'u' = true then leadingNumber a ≤ leadingNumber b else NumbersAtMost a b
  else Chars.isAtMost a b = true

theorem Precedes.total (p : Parsed) (a b : Chars) : Precedes p a b ∨ Precedes p b a := by
  unfold Precedes
  split
  · split
    · exact Int.le_total _ _
    · exact NumbersAtMost.total a b
  · exact Chars.isAtMost_total a b

theorem Precedes.trans {p : Parsed} {a b c : Chars} (h : Precedes p a b) (h' : Precedes p b c) :
    Precedes p a c := by
  unfold Precedes at *
  split_ifs at *
  · exact Int.le_trans h h'
  · exact h.trans h'
  · exact Chars.isAtMost_trans h h'

theorem inOrder_iff {p : Parsed} {a b : Chars} :
    inOrder p a b = true ↔ if p.has 'r' = true then Precedes p b a else Precedes p a b := by
  unfold inOrder Precedes NumbersAtMost
  by_cases heq : leadingNumber a = leadingNumber b
  · cases p.has 'n' <;> cases p.has 'u' <;> cases p.has 'r' <;> simp [heq]
  · have hne : leadingNumber b ≠ leadingNumber a := Ne.symm heq
    cases p.has 'n' <;> cases p.has 'u' <;> cases p.has 'r' <;> simp [heq, hne] <;> omega

theorem inOrder_total (p : Parsed) (a b : Chars) :
    (inOrder p a b || inOrder p b a) = true := by
  rw [Bool.or_eq_true, inOrder_iff, inOrder_iff]
  split
  · exact Precedes.total p b a
  · exact Precedes.total p a b

theorem inOrder_trans (p : Parsed) (a b c : Chars) (h : inOrder p a b = true)
    (h' : inOrder p b c = true) : inOrder p a c = true := by
  rw [inOrder_iff] at *
  split_ifs at *
  · exact h'.trans h
  · exact h.trans h'

/-- Sorted lines are the lines that were given, each of them before those it may stand before. -/
theorem mergeSort_inOrder (p : Parsed) (lines : List Chars) :
    (lines.mergeSort (inOrder p)).Perm lines ∧
      (lines.mergeSort (inOrder p)).Pairwise fun a b => inOrder p a b = true :=
  ⟨List.mergeSort_perm _ _, List.pairwise_mergeSort (inOrder_trans p) (inOrder_total p) lines⟩

theorem repeats_lines (lines : List Chars) :
    (repeats lines).flatMap (fun run => List.replicate run.1 run.2) = lines := by
  fun_induction repeats lines with
  | case1 => rfl
  | case2 lines n line others hrun ih | case3 line lines n other others hrun hne ih
  | case4 line lines hrun ih =>
    rw [← ih, hrun]
    rfl

theorem repeats_pos {lines : List Chars} {run : Nat × Chars} (h : run ∈ repeats lines) :
    0 < run.1 := by
  fun_induction repeats lines with
  | case1 => cases h
  | case2 lines n line others hrun ih =>
    rcases List.mem_cons.1 h with rfl | hmem
    · exact Nat.succ_pos n
    · exact ih (hrun ▸ List.mem_cons_of_mem _ hmem)
  | case3 line lines n other others hrun hne ih =>
    rcases List.mem_cons.1 h with rfl | hmem
    · exact Nat.one_pos
    · exact ih (hrun ▸ hmem)
  | case4 line lines hrun ih =>
    rw [List.mem_singleton.1 h]
    exact Nat.one_pos

theorem repeats_apart (lines : List Chars) :
    (repeats lines).IsChain fun run next => run.2 ≠ next.2 := by
  fun_induction repeats lines with
  | case1 => exact .nil
  | case2 lines n line others hrun ih =>
    rw [hrun] at ih
    cases ih with
    | singleton => exact .singleton _
    | cons_cons hne htail => exact .cons_cons hne htail
  | case3 line lines n other others hrun hne ih =>
    exact .cons_cons (Ne.symm hne) (hrun ▸ ih)
  | case4 line lines hrun ih => exact .singleton _

end Utility
end SchemaContract.Shell
