import Mathlib
import SchemaContract.Json.Reader

/-!
Fields of records. A record that is read has its fields in the order of their keys, each key once,
and of the fields with one key it has the last. Fields that are in order already stay as they are.
-/
namespace SchemaContract.Json

variable {f g : Field} {fs gs : List Field}

/-- Fields in the order of their keys, each key once. -/
def SortedKeys (fs : List Field) : Prop := fs.Pairwise fun f g => f.key < g.key

/-- The field of a key. -/
def fieldOf? (fs : List Field) (key : String) : Option Field := fs.find? (·.key = key)

theorem mem_insert (h : g ∈ Field.insert f fs) : g = f ∨ g ∈ fs := by
  fun_induction Field.insert f fs with
  | case1 => exact .inl (List.mem_singleton.1 h)
  | case2 => exact List.mem_cons.1 h
  | case3 g' gs => exact (List.mem_cons.1 h).imp_right (List.mem_cons_of_mem g')
  | case4 g' gs _ _ ih =>
    rcases List.mem_cons.1 h with rfl | h
    · exact .inr List.mem_cons_self
    · exact (ih h).imp_right (List.mem_cons_of_mem g')

theorem SortedKeys.insert (h : SortedKeys fs) : SortedKeys (Field.insert f fs) := by
  fun_induction Field.insert f fs with
  | case1 => exact List.pairwise_singleton _ f
  | case2 g' gs hlt =>
    refine List.pairwise_cons.2 ⟨fun g hg => ?_, h⟩
    rcases List.mem_cons.1 hg with rfl | hg
    · exact hlt
    · exact hlt.trans (List.rel_of_pairwise_cons h hg)
  | case3 g' gs _ heq =>
    obtain ⟨hg', hgs⟩ := List.pairwise_cons.1 h
    exact List.pairwise_cons.2 ⟨fun g hg => heq ▸ hg' g hg, hgs⟩
  | case4 g' gs hnlt hne ih =>
    obtain ⟨hg', hgs⟩ := List.pairwise_cons.1 h
    refine List.pairwise_cons.2 ⟨fun g hg => ?_, ih hgs⟩
    rcases mem_insert hg with rfl | hg
    · exact lt_of_le_of_ne (not_lt.1 hnlt) (Ne.symm hne)
    · exact hg' g hg

theorem fieldOf?_cons (key : String) :
    fieldOf? (f :: fs) key = if f.key = key then some f else fieldOf? fs key := by
  unfold fieldOf?
  rw [List.find?_cons]
  split <;> simp_all

theorem fieldOf?_append (key : String) :
    fieldOf? (fs ++ gs) key = (fieldOf? fs key).or (fieldOf? gs key) :=
  List.find?_append

theorem fieldOf?_insert (key : String) :
    fieldOf? (Field.insert f fs) key = if f.key = key then some f else fieldOf? fs key := by
  fun_induction Field.insert f fs with
  | case1 => exact fieldOf?_cons key
  | case2 => exact fieldOf?_cons key
  | case3 g gs _ heq =>
    rw [fieldOf?_cons, fieldOf?_cons, ← heq]
    split <;> rfl
  | case4 g gs _ hne ih =>
    rw [fieldOf?_cons, fieldOf?_cons, ih]
    by_cases hg : g.key = key
    · rw [if_pos hg, if_neg (hg ▸ hne), if_pos hg]
    · rw [if_neg hg, if_neg hg]

/-- A field behind all others is put at their end. -/
theorem insert_of_forall_lt (h : ∀ g ∈ fs, g.key < f.key) : Field.insert f fs = fs ++ [f] := by
  induction fs with
  | nil => rfl
  | cons g fs ih =>
    obtain ⟨hg, hfs⟩ := List.forall_mem_cons.1 h
    rw [Field.insert, if_neg hg.not_gt, if_neg hg.ne', ih hfs, List.cons_append]

theorem foldl_insert_of_sorted (h : SortedKeys (gs ++ fs)) :
    fs.foldl (fun sorted f => Field.insert f sorted) gs = gs ++ fs := by
  induction fs generalizing gs with
  | nil => exact (List.append_nil gs).symm
  | cons f fs ih =>
    have hlast : ∀ g ∈ gs, g.key < f.key := fun g hg =>
      (List.pairwise_append.1 h).2.2 g hg f List.mem_cons_self
    rw [List.foldl_cons, insert_of_forall_lt hlast, ih (by simpa using h), List.append_assoc,
      List.singleton_append]

theorem ofFields_of_sorted (h : SortedKeys fs) : ofFields fs = .record fs :=
  congrArg Json.record (foldl_insert_of_sorted h)

theorem foldl_insert (h : SortedKeys gs) :
    ∃ sorted, fs.foldl (fun sorted f => Field.insert f sorted) gs = sorted ∧ SortedKeys sorted ∧
      (∀ f ∈ sorted, f ∈ gs ∨ f ∈ fs) ∧
      ∀ key, fieldOf? sorted key = (fieldOf? fs.reverse key).or (fieldOf? gs key) := by
  induction fs generalizing gs with
  | nil => exact ⟨gs, rfl, h, fun f hf => .inl hf, fun key => rfl⟩
  | cons f fs ih =>
    obtain ⟨sorted, hfold, hsorted, hmem, hfind⟩ := @ih (Field.insert f gs) h.insert
    refine ⟨sorted, hfold, hsorted, fun g hg => ?_, fun key => ?_⟩
    · rcases hmem g hg with hg | hg
      · rcases mem_insert hg with rfl | hg
        · exact .inr List.mem_cons_self
        · exact .inl hg
      · exact .inr (List.mem_cons_of_mem f hg)
    · rw [hfind, fieldOf?_insert]
      rw [List.reverse_cons, fieldOf?_append, Option.or_assoc, fieldOf?_cons]
      split <;> rfl

/-- The record of some fields has each of their keys once, with the last field that has it. -/
theorem exists_ofFields (fs : List Field) :
    ∃ sorted, ofFields fs = .record sorted ∧ SortedKeys sorted ∧ (∀ f ∈ sorted, f ∈ fs) ∧
      ∀ key, fieldOf? sorted key = fieldOf? fs.reverse key := by
  obtain ⟨sorted, hfold, hsorted, hmem, hfind⟩ := @foldl_insert fs [] List.Pairwise.nil
  refine ⟨sorted, congrArg Json.record hfold, hsorted, fun f hf => ?_, fun key => ?_⟩
  · exact (hmem f hf).resolve_left List.not_mem_nil
  · rw [hfind]
    exact Option.or_none

end SchemaContract.Json
