import Mathlib
import SchemaContract.Proofs.Contract.Readable
import SchemaContract.Proofs.Grammar.Shape

/-!
What the text of a type keeps of its grouping. Options are joined by separators without parentheses,
so a union that stands in an intersection is read as if its first and last options stood there. The
text keeps everything else: two types have one text exactly if they are regrouped to the same type.
-/
namespace SchemaContract

/-- The type of a name is the name, or one of the table. -/
theorem Primitive.typeName_cases (name : String) :
    typeName name = name ∨ ∃ p ∈ table, typeName name = p.2 := by
  cases h : target? name with
  | none => exact .inl (by simp [typeName, h])
  | some target =>
    obtain ⟨l₁, l₂, hl, -⟩ := List.lookup_eq_some_iff.1 h
    refine .inr ⟨(name, target), ?_, by simp [typeName, h]⟩
    rw [hl]
    exact List.mem_append_right _ List.mem_cons_self

theorem Primitive.typeName_of_mem {p : String × String} (h : p ∈ table) :
    isIdentifier p.2 = true ∧ typeName p.2 = p.2 := by
  revert p
  decide +kernel

/-- The type that a name stands for stands for itself. -/
theorem Primitive.typeName_typeName (name : String) : typeName (typeName name) = typeName name := by
  rcases typeName_cases name with h | ⟨p, hp, h⟩
  · rw [h, h]
  · rw [h, (typeName_of_mem hp).2]

theorem Primitive.isIdentifier_typeName {name : String} (hn : isIdentifier name = true) :
    isIdentifier (typeName name) = true := by
  rcases typeName_cases name with h | ⟨p, hp, h⟩
  · rwa [h]
  · rw [h]
    exact (typeName_of_mem hp).1

namespace Expression

/-- The types that are built only from references, `unknown`, arrays, tuples, unions and
intersections. -/
inductive Plain : Expression → Prop where
  | reference (name : String) : Plain (.reference name)
  | unknown : Plain .unknown
  | array {e : Expression} : Plain e → Plain (.array e)
  | tuple {es : List Expression} : (∀ e ∈ es, Plain e) → Plain (.tuple es)
  | union {es : List Expression} : (∀ e ∈ es, Plain e) → Plain (.union es)
  | intersection {es : List Expression} : (∀ e ∈ es, Plain e) → Plain (.intersection es)

/-- The types of these in which no union is an option of an intersection. -/
inductive Unmixed : Expression → Prop where
  | reference (name : String) : Unmixed (.reference name)
  | unknown : Unmixed .unknown
  | array {e : Expression} : Unmixed e → Unmixed (.array e)
  | tuple {es : List Expression} : (∀ e ∈ es, Unmixed e) → Unmixed (.tuple es)
  | union {es : List Expression} : (∀ e ∈ es, Unmixed e) → Unmixed (.union es)
  | intersection {es : List Expression} :
      (∀ e ∈ es, Unmixed e) → (∀ options, .union options ∉ es) → Unmixed (.intersection es)

def unionParts : Expression → List Expression
  | .union es => es
  | e => [e]

def intersectionParts : Expression → List Expression
  | .intersection es => es
  | e => [e]

mutual

/-- A type with the names that stand in contracts, without unions directly in unions and
intersections directly in intersections. -/
def flattened : Expression → Expression
  | .reference name => .reference (Primitive.typeName name)
  | .unknown => .reference Primitive.any
  | .array e => .array e.flattened
  | .tuple es => .tuple (flattenedAll es)
  | .union es => .union ((flattenedAll es).flatMap unionParts)
  | .intersection es => .intersection ((flattenedAll es).flatMap intersectionParts)
  | e => e

def flattenedAll : List Expression → List Expression
  | [] => []
  | e :: es => e.flattened :: flattenedAll es

end

/-- Two choices with an intersection between them: only the last option of the one and the first of
the other are in the intersection. -/
def meet : List (List Expression) → List (List Expression) → List (List Expression)
  | [], yss => yss
  | [xs], [] => [xs]
  | [xs], ys :: yss => (xs ++ ys) :: yss
  | xs :: xs' :: xss, yss => xs :: meet (xs' :: xss) yss

/-- The type that is a choice of intersections of operands. -/
def choice (groups : List (List Expression)) : Expression :=
  unionOfAll (groups.map intersectionOfAll)

mutual

/-- The intersections of operands that a type is a choice of, as precedence has it. -/
def groups : Expression → List (List Expression)
  | .reference name => [[.reference (Primitive.typeName name)]]
  | .unknown => [[.reference Primitive.any]]
  | .array e => [[.array (choice e.groups)]]
  | .tuple es => [[.tuple ((groupsOfAll es).map choice)]]
  | .union es => (groupsOfAll es).flatten
  | .intersection es => (groupsOfAll es).foldr meet []
  | e => [[e]]

def groupsOfAll : List Expression → List (List (List Expression))
  | [] => []
  | e :: es => e.groups :: groupsOfAll es

end

/-- A type as it is read when intersections bind tighter than unions and nothing is in
parentheses. -/
def regrouped (e : Expression) : Expression := choice e.groups

theorem flattenedAll_eq_map (es : List Expression) : flattenedAll es = es.map flattened := by
  induction es with
  | nil => rfl
  | cons e es ih => rw [flattenedAll, ih, List.map_cons]

theorem groupsOfAll_eq_map (es : List Expression) : groupsOfAll es = es.map groups := by
  induction es with
  | nil => rfl
  | cons e es ih => rw [groupsOfAll, ih, List.map_cons]

/-- Choices of intersections of operands, none of them empty. -/
structure Divided (gs : List (List Expression)) : Prop where
  ne_nil : gs ≠ []
  parts_ne_nil : ∀ g ∈ gs, g ≠ []
  operands : ∀ g ∈ gs, ∀ e ∈ g, Grouped .operand e

theorem Divided.grouped {gs : List (List Expression)} (h : Divided gs) :
    Grouped .union (choice gs) := by
  apply Grouped.union
  · simpa using h.ne_nil
  · intro e he
    obtain ⟨g, hg, rfl⟩ := List.mem_map.1 he
    exact .intersection (h.parts_ne_nil g hg) (h.operands g hg)

theorem Divided.singleton {e : Expression} (h : Grouped .operand e) : Divided [[e]] :=
  ⟨by simp, by simp, by simpa using h⟩

theorem Divided.flatten {gss : List (List (List Expression))} (hne : gss ≠ [])
    (h : ∀ gs ∈ gss, Divided gs) : Divided gss.flatten := by
  refine ⟨?_, ?_, ?_⟩
  · intro hf
    obtain ⟨gs, hgs⟩ := List.exists_mem_of_ne_nil gss hne
    exact (h gs hgs).ne_nil (List.flatten_eq_nil_iff.1 hf gs hgs)
  · intro g hg
    obtain ⟨gs, hgs, hg⟩ := List.mem_flatten.1 hg
    exact (h gs hgs).parts_ne_nil g hg
  · intro g hg
    obtain ⟨gs, hgs, hg⟩ := List.mem_flatten.1 hg
    exact (h gs hgs).operands g hg

@[simp] theorem meet_nil (xss : List (List Expression)) : meet xss [] = xss := by
  induction xss with
  | nil => rfl
  | cons xs xss ih =>
    cases xss with
    | nil => rfl
    | cons xs' xss => rw [meet, ih]

theorem meet_eq {xss : List (List Expression)} {xs ys : List Expression}
    {yss : List (List Expression)} :
    meet (xss ++ [xs]) (ys :: yss) = xss ++ (xs ++ ys) :: yss := by
  induction xss with
  | nil => rfl
  | cons xs' xss ih =>
    cases xss with
    | nil => rfl
    | cons xs'' xss =>
      rw [List.cons_append, List.cons_append] at ih
      rw [List.cons_append, List.cons_append, meet, ih, List.cons_append, List.cons_append]

theorem Divided.meet {xss yss : List (List Expression)} (hx : Divided xss) (hy : Divided yss) :
    Divided (meet xss yss) := by
  obtain rfl | ⟨init, xs, rfl⟩ := List.eq_nil_or_concat xss
  · exact absurd rfl hx.ne_nil
  obtain ⟨ys, yss, rfl⟩ := List.exists_cons_of_ne_nil hy.ne_nil
  rw [List.concat_eq_append] at hx ⊢
  rw [meet_eq]
  refine ⟨by simp, ?_, ?_⟩
  · intro g hg
    simp only [List.mem_append, List.mem_cons] at hg
    rcases hg with hg | rfl | hg
    · exact hx.parts_ne_nil g (by simp [hg])
    · have hxs := hx.parts_ne_nil xs (by simp)
      simp [hxs]
    · exact hy.parts_ne_nil g (by simp [hg])
  · intro g hg e he
    simp only [List.mem_append, List.mem_cons] at hg
    rcases hg with hg | rfl | hg
    · exact hx.operands g (by simp [hg]) e he
    · rcases List.mem_append.1 he with he | he
      · exact hx.operands xs (by simp) e he
      · exact hy.operands ys (by simp) e he
    · exact hy.operands g (by simp [hg]) e he

theorem Divided.foldr_meet {gss : List (List (List Expression))} (hne : gss ≠ [])
    (h : ∀ gs ∈ gss, Divided gs) : Divided (gss.foldr Expression.meet []) := by
  induction gss with
  | nil => exact absurd rfl hne
  | cons gs gss ih =>
    cases gss with
    | nil =>
      rw [List.foldr_cons, List.foldr_nil, meet_nil]
      exact h gs List.mem_cons_self
    | cons gs' gss =>
      apply (h gs List.mem_cons_self).meet
      exact ih (by simp) fun a ha => h a (List.mem_cons_of_mem gs ha)

theorem letters_choice (gs : List (List Expression)) :
    (choice gs).letters = lettersBetween " | " (gs.map intersectionOfAll) :=
  letters_unionOfAll _

theorem letters_choice_append {gs gs' : List (List Expression)} (h : gs ≠ []) (h' : gs' ≠ []) :
    (choice (gs ++ gs')).letters =
      (choice gs).letters ++ (" | ".toList ++ (choice gs').letters) := by
  simp only [letters_choice, List.map_append]
  exact lettersBetween_append _ (by simpa using h) (by simpa using h')

/-- What stands before a choice does not depend on it. -/
theorem letters_choice_before (init : List (List Expression)) :
    ∃ p, ∀ gs, gs ≠ [] → (choice (init ++ gs)).letters = p ++ (choice gs).letters := by
  by_cases h : init = []
  · exact ⟨[], fun gs _ => by rw [h, List.nil_append, List.nil_append]⟩
  · refine ⟨(choice init).letters ++ " | ".toList, fun gs hgs => ?_⟩
    rw [letters_choice_append h hgs, List.append_assoc]

/-- What stands behind the first intersection of a choice does not depend on it. -/
theorem letters_choice_behind (gs : List (List Expression)) :
    ∃ p, ∀ g, (choice (g :: gs)).letters = lettersBetween " & " g ++ p := by
  by_cases h : gs = []
  · refine ⟨[], fun g => ?_⟩
    rw [h, List.append_nil]
    exact letters_intersectionOfAll g
  · refine ⟨" | ".toList ++ (choice gs).letters, fun g => ?_⟩
    have ha := @letters_choice_append [g] gs (by simp) h
    rw [List.singleton_append] at ha
    rw [ha]
    exact congrArg (· ++ _) (letters_intersectionOfAll g)

/-- In the text the groups that meet are written with an intersection between them. -/
theorem letters_choice_meet {xss yss : List (List Expression)} (hx : Divided xss)
    (hy : Divided yss) :
    (choice (meet xss yss)).letters =
      (choice xss).letters ++ (" & ".toList ++ (choice yss).letters) := by
  obtain rfl | ⟨init, xs, rfl⟩ := List.eq_nil_or_concat xss
  · exact absurd rfl hx.ne_nil
  obtain ⟨ys, yss, rfl⟩ := List.exists_cons_of_ne_nil hy.ne_nil
  rw [List.concat_eq_append] at hx ⊢
  have hxs : xs ≠ [] := hx.parts_ne_nil xs (by simp)
  have hys : ys ≠ [] := hy.parts_ne_nil ys (by simp)
  obtain ⟨p, hp⟩ := letters_choice_before init
  obtain ⟨q, hq⟩ := letters_choice_behind yss
  have hlast : (choice [xs]).letters = lettersBetween " & " xs := letters_intersectionOfAll xs
  rw [meet_eq, hp _ (by simp), hp _ (by simp), hq, hq, hlast, lettersBetween_append _ hxs hys]
  simp only [List.append_assoc]

theorem letters_choice_flatten {gss : List (List (List Expression))} (hne : gss ≠ [])
    (h : ∀ gs ∈ gss, Divided gs) :
    (choice gss.flatten).letters = lettersBetween " | " (gss.map choice) := by
  induction gss with
  | nil => exact absurd rfl hne
  | cons gs gss ih =>
    cases gss with
    | nil => simp
    | cons gs' gss =>
      have htail : ∀ a ∈ gs' :: gss, Divided a := fun a ha => h a (List.mem_cons_of_mem gs ha)
      rw [List.flatten_cons, letters_choice_append (h gs List.mem_cons_self).ne_nil
        (Divided.flatten (by simp) htail).ne_nil, ih (by simp) htail]
      exact (lettersBetween_cons_cons _ _ _ _).symm

theorem letters_choice_foldr_meet {gss : List (List (List Expression))} (hne : gss ≠ [])
    (h : ∀ gs ∈ gss, Divided gs) :
    (choice (gss.foldr meet [])).letters = lettersBetween " & " (gss.map choice) := by
  induction gss with
  | nil => exact absurd rfl hne
  | cons gs gss ih =>
    cases gss with
    | nil => simp
    | cons gs' gss =>
      have htail : ∀ a ∈ gs' :: gss, Divided a := fun a ha => h a (List.mem_cons_of_mem gs ha)
      rw [List.foldr_cons, letters_choice_meet (h gs List.mem_cons_self)
        (Divided.foldr_meet (by simp) htail), ih (by simp) htail]
      exact (lettersBetween_cons_cons _ _ _ _).symm

theorem map_ne_nil_of_two_le {α : Type} (f : Expression → α) {es : List Expression}
    (h : 2 ≤ es.length) : es.map f ≠ [] := by
  rw [ne_eq, List.map_eq_nil_iff]
  rintro rfl
  simp at h

/-- Regrouping gives a type that is grouped by precedence and has the same text. -/
theorem letters_choice_groups {e : Expression} (hp : e.Plain) (hw : e.WellFormed) :
    Divided e.groups ∧ (choice e.groups).letters = e.letters := by
  induction hp with
  | reference name =>
    rw [WellFormed] at hw
    rw [groups]
    refine ⟨.singleton (.name (Primitive.isIdentifier_typeName hw.1)
      (Primitive.typeName_typeName name)), ?_⟩
    change (Expression.reference (Primitive.typeName name)).letters = _
    rw [letters_reference, letters_reference, Primitive.typeName_typeName]
  | unknown => exact ⟨.singleton (.name (by decide) (by decide)), rfl⟩
  | @array e _ ih =>
    rw [WellFormed] at hw
    obtain ⟨hd, hl⟩ := ih hw
    rw [groups]
    refine ⟨.singleton (.array hd.grouped), ?_⟩
    change (Expression.array (choice e.groups)).letters = _
    rw [letters_array, letters_array, hl]
  | @tuple es _ ih =>
    rw [WellFormed, allWellFormed_iff] at hw
    rw [groups, groupsOfAll_eq_map, List.map_map]
    constructor
    · apply Divided.singleton
      apply Grouped.tuple
      intro e he
      obtain ⟨f, hf, rfl⟩ := List.mem_map.1 he
      exact (ih f hf (hw f hf)).1.grouped
    · have hl : lettersBetween ", " (es.map (choice ∘ groups)) = lettersBetween ", " es :=
        lettersBetween_map_congr _ fun e he => (ih e he (hw e he)).2
      change (Expression.tuple (es.map (choice ∘ groups))).letters = _
      rw [letters_tuple, letters_tuple, hl]
  | @union es _ ih =>
    rw [WellFormed, allWellFormed_iff] at hw
    have hne := map_ne_nil_of_two_le groups hw.1
    have hd : ∀ gs ∈ es.map groups, Divided gs :=
      List.forall_mem_map.2 fun e he => (ih e he (hw.2 e he)).1
    rw [groups, groupsOfAll_eq_map]
    refine ⟨Divided.flatten hne hd, ?_⟩
    rw [letters_choice_flatten hne hd, List.map_map, letters_union]
    exact lettersBetween_map_congr _ fun e he => (ih e he (hw.2 e he)).2
  | @intersection es _ ih =>
    rw [WellFormed, allWellFormed_iff] at hw
    have hne := map_ne_nil_of_two_le groups hw.1
    have hd : ∀ gs ∈ es.map groups, Divided gs :=
      List.forall_mem_map.2 fun e he => (ih e he (hw.2 e he)).1
    rw [groups, groupsOfAll_eq_map]
    refine ⟨Divided.foldr_meet hne hd, ?_⟩
    rw [letters_choice_foldr_meet hne hd, List.map_map, letters_intersection]
    exact lettersBetween_map_congr _ fun e he => (ih e he (hw.2 e he)).2

theorem grouped_regrouped {e : Expression} (hp : e.Plain) (hw : e.WellFormed) :
    Grouped .union e.regrouped :=
  (letters_choice_groups hp hw).1.grouped

theorem letters_regrouped {e : Expression} (hp : e.Plain) (hw : e.WellFormed) :
    e.regrouped.letters = e.letters :=
  (letters_choice_groups hp hw).2

/-- Types have one text exactly if they are regrouped to one type. -/
theorem letters_eq_iff {e₁ e₂ : Expression} (hp₁ : e₁.Plain) (hp₂ : e₂.Plain)
    (hw₁ : e₁.WellFormed) (hw₂ : e₂.WellFormed) :
    e₁.letters = e₂.letters ↔ e₁.regrouped = e₂.regrouped := by
  rw [← letters_regrouped hp₁ hw₁, ← letters_regrouped hp₂ hw₂]
  constructor
  · intro h
    have hg := (grouped_regrouped hp₁ hw₁).unique (grouped_regrouped hp₂ hw₂)
      (Level.ends_nil _) (Level.ends_nil _) (congrArg (· ++ []) h)
    exact hg.1
  · exact congrArg letters

-- Without unions in intersections, regrouping only flattens.
theorem unionOfAll_of_two_le {es : List Expression} (h : 2 ≤ es.length) :
    unionOfAll es = .union es := by
  match es, h with
  | _ :: _ :: _, _ => rfl

theorem intersectionOfAll_of_two_le {es : List Expression} (h : 2 ≤ es.length) :
    intersectionOfAll es = .intersection es := by
  match es, h with
  | _ :: _ :: _, _ => rfl

theorem two_le_length_flatten {ess : List (List Expression)} (h : 2 ≤ ess.length)
    (hne : ∀ es ∈ ess, es ≠ []) : 2 ≤ ess.flatten.length := by
  match ess, h with
  | es :: es' :: ess, _ =>
    have h₁ := List.length_pos_iff.2 (hne es (by simp))
    have h₂ := List.length_pos_iff.2 (hne es' (by simp))
    simp only [List.flatten_cons, List.length_append]
    omega

theorem foldr_meet_singletons {gs : List (List Expression)} (h : gs ≠ []) :
    (gs.map fun g => [g]).foldr meet [] = [gs.flatten] := by
  induction gs with
  | nil => exact absurd rfl h
  | cons g gs ih =>
    cases gs with
    | nil => simp
    | cons g' gs =>
      rw [List.map_cons, List.foldr_cons, ih (by simp)]
      rfl

/-- A type whose options are those that its groups are made of. -/
structure Flat (e : Expression) (gs : List (List Expression)) : Prop where
  groups_eq : gs = e.unionParts.map intersectionParts
  union_eq : unionOfAll e.unionParts = e
  intersection_eq : ∀ p ∈ e.unionParts, intersectionOfAll p.intersectionParts = p

theorem Flat.choice_eq {e : Expression} {gs : List (List Expression)} (h : Flat e gs) :
    choice gs = e := by
  have hm : (e.unionParts.map intersectionParts).map intersectionOfAll = e.unionParts := by
    rw [List.map_map]
    exact (List.map_congr_left h.intersection_eq).trans (List.map_id _)
  unfold choice
  rw [h.groups_eq, hm, h.union_eq]

theorem Flat.of_operand {e : Expression} (hu : e.unionParts = [e])
    (hi : e.intersectionParts = [e]) : Flat e [[e]] := by
  refine ⟨?_, ?_, ?_⟩
  · rw [hu, List.map_singleton, hi]
  · rw [hu]
    rfl
  · intro p hp
    rw [hu, List.mem_singleton] at hp
    rw [hp, hi]
    rfl

theorem unionParts_flattened {e : Expression} (h : ∀ options, e ≠ .union options) :
    e.flattened.unionParts = [e.flattened] := by
  cases e with
  | union options => exact absurd rfl (h options)
  | _ => rfl

theorem Flat.union {es : List Expression} (htwo : 2 ≤ es.length)
    (hflat : ∀ e ∈ es, Flat e.flattened e.groups) (hne : ∀ e ∈ es, e.groups ≠ []) :
    Flat (Expression.union es).flattened (Expression.union es).groups := by
  have hparts : (flattenedAll es).flatMap unionParts =
      (es.map fun e => e.flattened.unionParts).flatten := by
    rw [flattenedAll_eq_map, List.flatMap_def, List.map_map]
    rfl
  have hgroups : (groupsOfAll es).flatten =
      ((es.map fun e => e.flattened.unionParts).flatten).map intersectionParts := by
    rw [groupsOfAll_eq_map, List.map_flatten, List.map_map]
    exact congrArg _ (List.map_congr_left fun e he => (hflat e he).groups_eq)
  have hlength : 2 ≤ (es.map fun e => e.flattened.unionParts).flatten.length := by
    apply two_le_length_flatten
    · simpa using htwo
    · intro parts hm hn
      obtain ⟨e, he, rfl⟩ := List.mem_map.1 hm
      apply hne e he
      rw [(hflat e he).groups_eq, hn]
      rfl
  rw [groups, flattened, hgroups, hparts]
  refine ⟨rfl, unionOfAll_of_two_le hlength, ?_⟩
  intro p hm
  obtain ⟨parts, hparts, hm⟩ := List.mem_flatten.1 hm
  obtain ⟨e, he, rfl⟩ := List.mem_map.1 hparts
  exact (hflat e he).intersection_eq p hm

theorem Flat.intersection {es : List Expression} (htwo : 2 ≤ es.length)
    (hgroup : ∀ e ∈ es, e.groups = [e.flattened.intersectionParts])
    (hne : ∀ e ∈ es, e.flattened.intersectionParts ≠ []) :
    Flat (Expression.intersection es).flattened (Expression.intersection es).groups := by
  have hparts : (flattenedAll es).flatMap intersectionParts =
      (es.map fun e => e.flattened.intersectionParts).flatten := by
    rw [flattenedAll_eq_map, List.flatMap_def, List.map_map]
    rfl
  have hgroups : (groupsOfAll es).foldr meet [] =
      [(es.map fun e => e.flattened.intersectionParts).flatten] := by
    have hmap := map_ne_nil_of_two_le (fun e => e.flattened.intersectionParts) htwo
    rw [groupsOfAll_eq_map, List.map_congr_left hgroup, ← foldr_meet_singletons hmap,
      List.map_map]
    rfl
  have hlength : 2 ≤ (es.map fun e => e.flattened.intersectionParts).flatten.length := by
    apply two_le_length_flatten
    · simpa using htwo
    · intro parts hm
      obtain ⟨e, he, rfl⟩ := List.mem_map.1 hm
      exact hne e he
  rw [groups, flattened, hgroups, hparts]
  refine ⟨rfl, rfl, ?_⟩
  intro p hm
  obtain rfl := List.mem_singleton.1 hm
  exact intersectionOfAll_of_two_le hlength

theorem flat_groups {e : Expression} (hp : e.Plain) (hu : e.Unmixed) (hw : e.WellFormed) :
    Flat e.flattened e.groups := by
  induction hu with
  | reference name => exact .of_operand rfl rfl
  | unknown => exact .of_operand rfl rfl
  | @array e _ ih =>
    cases hp with
    | array hp =>
      rw [WellFormed] at hw
      rw [groups, flattened, (ih hp hw).choice_eq]
      exact .of_operand rfl rfl
  | @tuple es _ ih =>
    cases hp with
    | tuple hp =>
      rw [WellFormed, allWellFormed_iff] at hw
      have hc : es.map (choice ∘ groups) = es.map flattened :=
        List.map_congr_left fun e he => (ih e he (hp e he) (hw e he)).choice_eq
      rw [groups, flattened, groupsOfAll_eq_map, flattenedAll_eq_map, List.map_map, hc]
      exact .of_operand rfl rfl
  | @union es _ ih =>
    cases hp with
    | union hp =>
      rw [WellFormed, allWellFormed_iff] at hw
      apply Flat.union hw.1
      · exact fun e he => ih e he (hp e he) (hw.2 e he)
      · exact fun e he => (letters_choice_groups (hp e he) (hw.2 e he)).1.ne_nil
  | @intersection es _ hn ih =>
    cases hp with
    | intersection hp =>
      rw [WellFormed, allWellFormed_iff] at hw
      have hgroup (e) (he : e ∈ es) : e.groups = [e.flattened.intersectionParts] := by
        have hu : e.flattened.unionParts = [e.flattened] := by
          apply unionParts_flattened
          rintro options rfl
          exact hn options he
        rw [(ih e he (hp e he) (hw.2 e he)).groups_eq, hu, List.map_singleton]
      apply Flat.intersection hw.1 hgroup
      intro e he
      apply (letters_choice_groups (hp e he) (hw.2 e he)).1.parts_ne_nil
      rw [hgroup e he]
      exact List.mem_cons_self

theorem regrouped_eq_flattened {e : Expression} (hp : e.Plain) (hu : e.Unmixed)
    (hw : e.WellFormed) : e.regrouped = e.flattened :=
  (flat_groups hp hu hw).choice_eq

theorem run_typeText_eq_iff {e₁ e₂ : Expression} (s₁ s₂ : Option Slot) (b₁ b₂ : ClauseBuffer) :
    ((e₁.typeText s₁).run b₁).1 = ((e₂.typeText s₂).run b₂).1 ↔ e₁.letters = e₂.letters := by
  rw [run_typeText, run_typeText]
  exact String.toList_inj.symm

/-- Two types that are read from source texts are written alike exactly if they are regrouped
alike, and then they have the same groups unless a union stands in an intersection. -/
theorem typeText_eq_iff_regrouped {e₁ e₂ : Expression} (h₁ : e₁.Parsed) (h₂ : e₂.Parsed)
    (hp₁ : e₁.Plain) (hp₂ : e₂.Plain) (s₁ s₂ : Option Slot) (b₁ b₂ : ClauseBuffer) :
    (((e₁.typeText s₁).run b₁).1 = ((e₂.typeText s₂).run b₂).1 ↔
        e₁.regrouped = e₂.regrouped) ∧
      (((e₁.typeText s₁).run b₁).1 = ((e₂.typeText s₂).run b₂).1 →
        e₁.Unmixed → e₂.Unmixed → e₁.flattened = e₂.flattened) := by
  have hiff := letters_eq_iff hp₁ hp₂ h₁.wellFormed h₂.wellFormed
  rw [run_typeText_eq_iff]
  refine ⟨hiff, ?_⟩
  intro h hu₁ hu₂
  rw [← regrouped_eq_flattened hp₁ hu₁ h₁.wellFormed,
    ← regrouped_eq_flattened hp₂ hu₂ h₂.wellFormed]
  exact hiff.1 h

/-- Two intersections that are nested differently. -/
theorem typeText_eq_iff_regrouped_nested :
    let array : Expression := .array (.reference "string")
    let e₁ : Expression := .intersection [.intersection [.reference "A", array], .reference "B"]
    let e₂ : Expression := .intersection [.reference "A", .intersection [array, .reference "B"]]
    e₁.Parsed ∧ e₂.Parsed ∧ e₁.Plain ∧ e₂.Plain ∧ e₁.Unmixed ∧ e₂.Unmixed ∧
      e₁.regrouped = e₂.regrouped ∧ e₁.flattened = e₂.flattened := by
  intro array e₁ e₂
  have h₁ : e₁.Parsed := .of_text "(A & string[]) & B" (by cbv)
  have h₂ : e₂.Parsed := .of_text "A & (string[] & B)" (by cbv)
  have hp₁ : e₁.Plain := by grind [Plain]
  have hp₂ : e₂.Plain := by grind [Plain]
  have hu₁ : e₁.Unmixed := by grind [Unmixed]
  have hu₂ : e₂.Unmixed := by grind [Unmixed]
  have h := typeText_eq_iff_regrouped h₁ h₂ hp₁ hp₂ none none .empty .empty
  exact ⟨h₁, h₂, hp₁, hp₂, hu₁, hu₂, h.1.1 rfl, h.2 rfl hu₁ hu₂⟩

/-- The groups of a type are lost in its text when a union stands in an intersection: the texts
`(A | B) & C` and `A | (B & C)` are read as two types, both written `A | B & C`. -/
theorem typeText_merges_groups :
    ¬ ∀ e₁ e₂ : Expression, e₁.Parsed → e₂.Parsed → e₁.Plain → e₂.Plain →
      (∀ s₁ s₂ b₁ b₂, ((e₁.typeText s₁).run b₁).1 = ((e₂.typeText s₂).run b₂).1) →
      e₁.flattened = e₂.flattened := by
  intro h
  have hm := h (.intersection [.union [.reference "A", .reference "B"], .reference "C"])
    (.union [.reference "A", .intersection [.reference "B", .reference "C"]])
    (.of_text "(A | B) & C" (by cbv)) (.of_text "A | (B & C)" (by cbv))
    (by grind [Plain]) (by grind [Plain])
    (fun _ _ _ _ => (run_typeText_eq_iff _ _ _ _).2 rfl)
  cases hm

end Expression
end SchemaContract
