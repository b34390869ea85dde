import SchemaContract.Proofs.Grammar.Gives
import SchemaContract.Proofs.Schema.WellFormed

/-!
What the rules of names find: dotted names, references with their members, and the names that are
types of their own.
-/
namespace SchemaContract.Grammar

variable {ts rest : List Token}

theorem dottedRest_of_none {start : String} (h : mark? .dot ts = none) :
    dottedRest start ts = .ok (.before start ts) := by
  rcases ts with _ | ⟨t, _ | ⟨u, us⟩⟩
  · rfl
  · rw [dottedRest, if_neg (mark?_cons_eq_none_iff.1 h)]
  · rw [dottedRest, if_neg (mark?_cons_eq_none_iff.1 h)]

theorem dottedRest_cons {start : String} {t : Token} (ht : t.kind = .mark .dot) :
    dottedRest start (t :: ts) = (do
      let ⟨part, us, h⟩ ← name .identifierAfterDot ts
      let found ← dottedRest (start ++ "." ++ part) us
      .ok (found.widen (Nat.le_succ_of_le (Nat.le_succ_of_le h)))) := by
  cases ts with
  | nil =>
    rw [dottedRest, if_pos ht]
    rfl
  | cons u us =>
    rw [dottedRest, if_pos ht, name]
    cases u.kind <;> rfl

theorem gives_dottedRest_of_none {start n : String} (h : mark? .dot ts = none) :
    Gives (dottedRest start ts) n rest ↔ start = n ∧ ts = rest := by
  rw [dottedRest_of_none h]
  exact gives_ok_iff

theorem gives_dottedRest_cons {start n : String} {t : Token} (h : t.kind = .mark .dot) :
    Gives (dottedRest start (t :: ts)) n rest ↔
      ∃ u us part, ts = u :: us ∧ u.kind = .name part ∧
        Gives (dottedRest (start ++ "." ++ part) us) n rest := by
  rw [dottedRest_cons h]
  simp only [gives_bind_iff, gives_ok_iff, Found.widen, exists_and_right, ← gives_def,
    gives_name_iff]
  grind

theorem gives_dottedName_iff {n : String} :
    Gives (dottedName ts) n rest ↔
      ∃ t us start, ts = t :: us ∧ t.kind = .name start ∧
        Gives (dottedRest start us) n rest := by
  unfold dottedName
  simp only [gives_bind_iff, gives_ok_iff, Found.widen, exists_and_right, ← gives_def,
    gives_name_iff]
  grind

theorem memberChain_of_none {base : Expression} (h : mark? .dot ts = none) :
    memberChain base ts = .ok (.before base ts) := by
  rcases ts with _ | ⟨t, _ | ⟨u, us⟩⟩
  · rfl
  · rw [memberChain, if_neg (mark?_cons_eq_none_iff.1 h)]
  · rw [memberChain, if_neg (mark?_cons_eq_none_iff.1 h)]

theorem memberChain_cons {base : Expression} {t : Token} (ht : t.kind = .mark .dot) :
    memberChain base (t :: ts) = (do
      let ⟨part, us, h⟩ ← name .identifierAfterDot ts
      let found ← memberChain (.member base part) us
      .ok (found.widen (Nat.le_succ_of_le (Nat.le_succ_of_le h)))) := by
  cases ts with
  | nil =>
    rw [memberChain, if_pos ht]
    rfl
  | cons u us =>
    rw [memberChain, if_pos ht, name]
    cases u.kind <;> rfl

theorem gives_memberChain_of_none {base e : Expression} (h : mark? .dot ts = none) :
    Gives (memberChain base ts) e rest ↔ base = e ∧ ts = rest := by
  rw [memberChain_of_none h]
  exact gives_ok_iff

theorem gives_memberChain_cons {base e : Expression} {t : Token} (h : t.kind = .mark .dot) :
    Gives (memberChain base (t :: ts)) e rest ↔
      ∃ u us part, ts = u :: us ∧ u.kind = .name part ∧
        Gives (memberChain (.member base part) us) e rest := by
  rw [memberChain_cons h]
  simp only [gives_bind_iff, gives_ok_iff, Found.widen, exists_and_right, ← gives_def,
    gives_name_iff]
  grind

theorem gives_reference_iff {n : String} {e : Expression} :
    Gives (reference n ts) e rest ↔
      Gives (memberChain (.reference n) ts) e rest ∧ mark? .less rest = none := by
  unfold reference
  rw [gives_bind_iff]
  constructor
  · rintro ⟨v, mid, hm, hc, h⟩
    cases hl : mark? .less mid with
    | none =>
      simp only [hl] at h
      obtain ⟨rfl, rfl⟩ := gives_ok_iff.1 h
      exact ⟨⟨hm, hc⟩, hl⟩
    | some found =>
      simp only [hl] at h
      exact absurd h not_gives_error
  · rintro ⟨⟨hm, hc⟩, hl⟩
    refine ⟨e, rest, hm, hc, ?_⟩
    simp only [hl]
    exact gives_ok_iff.2 ⟨rfl, rfl⟩

/-- The type that one of the names is that are types of their own. -/
def keywordType? : String → Option Expression
  | "void" => some .void
  | "never" => some .never
  | "unknown" => some .unknown
  | _ => none

theorem keywordType?_eq_none_iff {n : String} : keywordType? n = none ↔ n ∉ typeKeywords := by
  unfold keywordType? typeKeywords
  split <;> simp_all

theorem named_of_some {n : String} {keyword : Expression} (h : keywordType? n = some keyword) :
    named n ts = .ok (.before keyword ts) := by
  unfold keywordType? at h
  split at h <;> cases h <;> rfl

theorem named_of_none {n : String} (h : keywordType? n = none) :
    named n ts = reference n ts := by
  unfold named
  split <;> first | rfl | cases h

theorem gives_named_of_some {n : String} {e keyword : Expression}
    (h : keywordType? n = some keyword) :
    Gives (named n ts) e rest ↔ keyword = e ∧ ts = rest := by
  rw [named_of_some h]
  exact gives_ok_iff

theorem gives_named_of_none {n : String} {e : Expression} (h : keywordType? n = none) :
    Gives (named n ts) e rest ↔ Gives (reference n ts) e rest := by
  rw [named_of_none h]

end SchemaContract.Grammar
