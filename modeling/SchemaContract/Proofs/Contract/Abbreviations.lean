import Mathlib
import SchemaContract.Proofs.Contract.Outcome

/-!
Models that name a type. What stands behind the name is the text of the type, as it is written
everywhere else, unless the target is a member of something that has a name: then it is the path,
which types are never written as. Only a name without members can be that of a primitive.
-/
namespace SchemaContract

/-- The names along a reference or an identifier and a chain of members over it. -/
inductive Expression.Chain : Expression → List String → Prop where
  | reference (name : String) : Chain (.reference name) [name]
  | identifier (name : String) : Chain (.identifier name) [name]
  | member {base : Expression} {names : List String} (name : String) :
      Chain base names → Chain (.member base name) (names ++ [name])

namespace Expression

variable {e : Expression} {names : List String}

theorem Chain.ne_nil (h : e.Chain names) : names ≠ [] := by
  cases h <;> simp

theorem Chain.path?_eq (h : e.Chain names) : e.path? = some (".".intercalate names) := by
  induction h with
  | reference name | identifier name => simp [path?]
  | member name hbase ih =>
    rw [path?, ih, String.intercalate_append_of_ne_nil hbase.ne_nil (by simp),
      String.intercalate_singleton]
    rfl

theorem exists_chain_of_path? {path : String} :
    (e : Expression) → e.path? = some path → ∃ names, e.Chain names
  | .reference name, _ => ⟨_, .reference name⟩
  | .identifier name, _ => ⟨_, .identifier name⟩
  | .member base name, h => by
    obtain ⟨start, hbase, -⟩ := Option.map_eq_some_iff.1 h
    obtain ⟨names, hnames⟩ := exists_chain_of_path? base hbase
    exact ⟨_, hnames.member name⟩

theorem path?_eq_none (h : ∀ names, ¬ e.Chain names) : e.path? = none := by
  cases hp : e.path? with
  | none => rfl
  | some path =>
    obtain ⟨names, hnames⟩ := exists_chain_of_path? e hp
    exact absurd hnames (h names)

theorem Chain.eq_name (h : e.Chain names) (hn : names.length < 2) :
    ∃ name, e = .reference name ∨ e = .identifier name := by
  cases h with
  | reference name => exact ⟨name, .inl rfl⟩
  | identifier name => exact ⟨name, .inr rfl⟩
  | member name hbase =>
    have := List.length_pos_iff.2 hbase.ne_nil
    rw [List.length_append, List.length_singleton] at hn
    omega

end Expression

theorem Primitive.target?_eq_none_iff (name : String) : target? name = none ↔ name ∉ names := by
  unfold target? names
  rw [List.lookup_eq_none_iff, List.mem_map, not_exists]
  refine forall_congr' fun p => ?_
  rw [bne_iff_ne, not_and, ne_comm]

theorem Primitive.target?_dotted (start name : String) : target? (start ++ "." ++ name) = none := by
  have hdot : ∀ p ∈ names, '.' ∉ p.toList := by decide +kernel
  refine (target?_eq_none_iff _).2 fun hp => hdot _ hp ?_
  simp

/-- What contracts write for a model with this target: a keyword, and what the name stands for. -/
structure Expression.StandsAs (target : Expression) (keyword type : String) : Prop where
  /-- A chain of members over a name stands for its path. -/
  path : ∀ names, target.Chain names → 2 ≤ names.length → type = ".".intercalate names
  /-- Any other target stands for its text as a type. -/
  text : (∀ names, target.Chain names → names.length < 2) →
    ∀ b, (target.typeText none).run b = (type, b)
  known : keyword = "typedecl" ∨ keyword = "typedef"
  declared : keyword = "typedecl" ↔
    ∃ p ∈ Primitive.names, target = .reference p ∨ target = .identifier p

namespace Expression

variable {target : Expression}

theorem run_typeText_none (b : ClauseBuffer) :
    (target.typeText none).run b = (target.plainType, b) := by
  rw [run_typeText, slotClauses_none, ClauseBuffer.append_nil]

theorem standsAs_name {name : String} (h : target = .reference name ∨ target = .identifier name) :
    target.StandsAs (if name ∈ Primitive.names then "typedecl" else "typedef")
      target.plainType where
  path names hchain hn := by
    rcases h with rfl | rfl <;> cases hchain <;> exact absurd hn (by simp)
  text _ := run_typeText_none
  known := by split <;> simp
  declared := by
    have hname : (∃ p ∈ Primitive.names, target = .reference p ∨ target = .identifier p) ↔
        name ∈ Primitive.names := by
      refine ⟨?_, fun hp => ⟨name, hp, h⟩⟩
      rintro ⟨p, hp, ht⟩
      rcases h with rfl | rfl <;> rcases ht with ht | ht <;> cases ht <;> exact hp
    rw [hname]
    split <;> simp_all

theorem not_declared (target : Expression)
    (h : ∀ name, target ≠ .reference name ∧ target ≠ .identifier name) :
    "typedef" = "typedecl" ↔
      ∃ p ∈ Primitive.names, target = .reference p ∨ target = .identifier p := by
  refine ⟨fun he => absurd he (by decide), ?_⟩
  rintro ⟨p, -, hp⟩
  exact absurd hp (not_or.2 (h p))

theorem standsAs_chain {names : List String} (h : target.Chain names) (hn : 2 ≤ names.length) :
    target.StandsAs "typedef" (".".intercalate names) where
  path names' h' _ := Option.some.inj (h.path?_eq.symm.trans h'.path?_eq)
  text hshort := absurd (hshort names h) (Nat.not_lt.2 hn)
  known := .inr rfl
  declared := not_declared target fun name => by
    constructor <;> rintro rfl <;> cases h <;> exact absurd hn (by simp)

theorem standsAs_other (h : ∀ names, ¬ target.Chain names) :
    target.StandsAs "typedef" target.plainType where
  path names hchain := absurd hchain (h names)
  text _ := run_typeText_none
  known := .inr rfl
  declared := not_declared target fun name => by
    constructor <;> rintro rfl
    · exact h _ (.reference name)
    · exact h _ (.identifier name)

end Expression

namespace Abbreviation

variable (name : String) {target : Expression}

theorem ofTarget_name {type : String} (h : target = .reference type ∨ target = .identifier type) :
    ofTarget name target =
      if type ∈ Primitive.names then .declared name target.plainType
      else .defined name target.plainType := by
  have hpath : target.path? = some type := by rcases h with rfl | rfl <;> rfl
  have htype : target.plainType = Primitive.typeName type := by
    rcases h with rfl | rfl <;> exact congrArg Prod.fst (Slot.run_typeOfName none type .empty)
  rw [ofTarget, hpath, htype, Primitive.typeName]
  split_ifs with hp
  · obtain ⟨primitive, hprimitive⟩ :=
      Option.ne_none_iff_exists'.1 (mt (Primitive.target?_eq_none_iff type).1 (not_not_intro hp))
    simp [hprimitive]
  · simp [(Primitive.target?_eq_none_iff type).2 hp]

theorem ofTarget_chain {names : List String} (h : target.Chain names) (hn : 2 ≤ names.length) :
    ofTarget name target = .defined name (".".intercalate names) := by
  have hpath := h.path?_eq
  cases h with
  | reference | identifier => exact absurd hn (by simp)
  | @member base names last hbase =>
    have hdotted : Primitive.target? (".".intercalate (names ++ [last])) = none := by
      rw [String.intercalate_append_of_ne_nil hbase.ne_nil (by simp), String.intercalate_singleton]
      exact Primitive.target?_dotted _ last
    simp only [ofTarget, hpath, hdotted]

theorem ofTarget_other (h : ∀ names, ¬ target.Chain names) :
    ofTarget name target = .defined name target.plainType := by
  rw [ofTarget, Expression.path?_eq_none h]

theorem text_ofTarget (target : Expression) :
    ∃ keyword type, target.StandsAs keyword type ∧
      (ofTarget name target).text = keyword ++ " " ++ name ++ " = " ++ type ++ ";" := by
  by_cases hchain : ∃ names, target.Chain names
  · obtain ⟨names, hchain⟩ := hchain
    rcases Nat.lt_or_ge names.length 2 with hn | hn
    · obtain ⟨type, htype⟩ := hchain.eq_name hn
      refine ⟨_, _, Expression.standsAs_name htype, ?_⟩
      rw [ofTarget_name name htype]
      split <;> rfl
    · refine ⟨_, _, Expression.standsAs_chain hchain hn, ?_⟩
      rw [ofTarget_chain name hchain hn]
      rfl
  · have hnone := not_exists.1 hchain
    refine ⟨_, _, Expression.standsAs_other hnone, ?_⟩
    rw [ofTarget_other name hnone]
    rfl

end Abbreviation

/-- A model that has a target is never refused and leaves the buffer alone, whatever the target is
and whatever the buffer holds. It stands for the text of its target, or for the path where that is a
chain of members over a name; and it is declared exactly where the target is the name of a
primitive. -/
theorem Model.draft_abbreviates (name : String) (ds : List Decorator) (target : Expression)
    (members : List Member) (b : ClauseBuffer) :
    ∃ keyword type, target.StandsAs keyword type ∧
      (Model.draft ⟨name, ds, some target, members⟩).from b =
        (.ok (keyword ++ " " ++ name ++ " = " ++ type ++ ";"), b) := by
  obtain ⟨keyword, type, hstands, htext⟩ := Abbreviation.text_ofTarget name target
  refine ⟨keyword, type, hstands, ?_⟩
  unfold Model.draft
  simp only [Draft.from_bind, Draft.from_liftM, Abbreviation.run_eq_ofTarget, ← htext]
  rfl

theorem Model.draft_abbreviates_members :
    let target : Expression := .member (.reference "string") "uint8"
    target.Chain ["string", "uint8"] ∧
      (Model.draft ⟨"M", [], some target, []⟩).from ⟨["$x;"]⟩ =
        (.ok "typedef M = string.uint8;", ⟨["$x;"]⟩) := by
  intro target
  have hchain : target.Chain ["string", "uint8"] := .member _ (.reference _)
  obtain ⟨keyword, type, hstands, h⟩ := Model.draft_abbreviates "M" [] target [] ⟨["$x;"]⟩
  have htype : type = "string.uint8" := hstands.path _ hchain (by decide)
  have hkeyword : keyword = "typedef" := by
    refine hstands.known.resolve_left fun hk => ?_
    obtain ⟨p, -, hp | hp⟩ := hstands.declared.1 hk <;> exact absurd hp (by simp [target])
  rw [htype, hkeyword] at h
  exact ⟨hchain, h⟩

end SchemaContract
