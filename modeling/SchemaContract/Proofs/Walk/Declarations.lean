import SchemaContract.Proofs.Walk.Expressions

/-!
The rules of declarations as walks follow the rules of the grammar.
-/
namespace SchemaContract.Walk

open Entry
open Grammar (Fault mark?_cons_of_eq mark?_cases)

variable {text : List Char} {tokens : Tokens} {caller : Entry}

theorem follows_modelTarget (ts : List Token)
    (hc : ∀ us : List Token, us.length ≤ ts.length → caller.MayEnter tokens .expression us) :
    Follows text tokens caller (modelTarget caller) ts (Grammar.modelTarget ts) := by
  have hword : Follows text tokens caller _ ts _ := follows_optionalWord "is" ts
  unfold Grammar.modelTarget
  generalize Grammar.optionalWord "is" ts = found at hword
  obtain ⟨given, ts₁, h₁⟩ := found
  refine hword.behind ?_
  cases given with
  | true =>
    have htarget : caller.MayEnter tokens .expression ts₁ := hc ts₁ (Nat.le_of_lt_succ h₁)
    exact (obeys_expression ts₁).bind htarget fun e ts₂ h₂ _ => .pure
  | false => exact .pure

theorem follows_modelBody (target? : Option Expression) (ts : List Token)
    (hc : caller.MayEnter tokens .members ts) :
    Follows text tokens caller (modelBody caller target?) ts (Grammar.modelBody target? ts) := by
  unfold Grammar.modelBody
  refine .ite_mark (fun t us hts ht => ?_) (fun hm => ?_)
  · subst hts
    rw [mark?_cons_of_eq ht]
    have hbody : caller.MayEnter tokens .members us := hc.of_lt (Nat.lt_succ_self _)
    exact ((obeys_members .body us).follows hbody).kept fun _ => ⟨rfl, rfl⟩
  · rw [hm]
    cases target? with
    | some e => exact (follows_expect _ _ ts).bind fun _ ts₂ h₂ _ => .pure
    | none => exact follows_fail _

theorem obeys_model (ds : List Decorator) (ts : List Token) :
    Obeys text tokens .model (fun caller => model caller ds) ts (Grammar.model ds ts) := by
  refine ⟨_, fun caller => model.eq_1 caller ds, fun here hh =>
    (follows_name _ ts).bind fun n ts₁ h₁ _ => ?_⟩
  refine follows_current.behind ?_
  rcases mark?_cases .less ts₁ with hm | ⟨t, us, rfl, ht⟩
  · rw [isMark_cellOf_of_none hm]
    simp only [hm]
    have htarget (us : List Token) (hle : us.length ≤ ts₁.length) :
        here.MayEnter tokens .expression us := hh.mayEnter (by omega)
    refine (follows_modelTarget ts₁ htarget).bind fun target? ts₂ h₂ _ => ?_
    have hbody : here.MayEnter tokens .members ts₂ := hh.mayEnter (by omega)
    exact (follows_modelBody target? ts₂ hbody).bind fun ms ts₃ h₃ _ => .pure
  · rw [if_pos (by simp [isMark, cellOf, ht])]
    simp only [mark?_cons_of_eq ht]
    exact follows_fail _

theorem follows_enumerationCase (ds : List Decorator) (ts : List Token)
    (hc : ∀ us : List Token, us.length < ts.length → caller.MayEnter tokens .primary us) :
    Follows text tokens caller (enumerationCase caller ds) ts (Grammar.enumerationCase ds ts) := by
  unfold Grammar.enumerationCase
  refine .ite_mark (fun t us hts ht => ?_) (fun hm => ?_)
  · subst hts
    rw [mark?_cons_of_eq ht]
    exact (obeys_primary us).bind (hc us (Nat.lt_succ_self _)) fun e ts₂ h₂ _ => .pure
  · rw [hm]
    refine (follows_key _ ts).bind fun k ts₁ h₁ _ => ?_
    refine .ite_mark (fun t us hts ht => ?_) (fun hm => ?_)
    · subst hts
      simp only [mark?_cons_of_eq ht]
      exact (obeys_primary us).bind (hc us (Nat.lt_of_succ_lt h₁)) fun e ts₂ h₂ _ => .pure
    · simp only [hm]
      exact .pure

theorem obeys_cases (ts : List Token) :
    Obeys text tokens .cases cases ts (Grammar.enumerationCases ts) := by
  rw [Grammar.enumerationCases]
  refine ⟨_, cases.eq_1, fun here hh => .ite_mark (fun t us hts ht => ?_) (fun hm => ?_)⟩
  · subst hts
    rw [mark?_cons_of_eq ht]
    exact .pure
  · rw [hm]
    refine (obeys_decorators ts).bind (hh.mayEnter_same (by decide)) fun ds ts₁ h₁ _ => ?_
    have hcase (us : List Token) (hlt : us.length < ts₁.length) :
        here.MayEnter tokens .primary us := hh.mayEnter (by omega)
    refine (follows_enumerationCase ds ts₁ hcase).bind fun first ts₂ h₂ _ => ?_
    refine (follows_separator _ _ ts₂).bind fun _ ts₃ h₃ _ => ?_
    have hlt : ts₃.length < ts.length := by omega
    exact (obeys_cases ts₃).bind (hh.mayEnter hlt) fun others ts₄ h₄ _ => .pure
termination_by ts.length

theorem obeys_enumeration (ds : List Decorator) (ts : List Token) :
    Obeys text tokens .enumeration (fun caller => enumeration caller ds) ts
      (Grammar.enumeration ds ts) := by
  refine ⟨_, fun caller => enumeration.eq_1 caller ds, fun here hh =>
    (follows_name _ ts).bind fun n ts₁ h₁ _ => ?_⟩
  refine (follows_expect _ _ ts₁).bind fun _ ts₂ h₂ _ => ?_
  have hcases : here.MayEnter tokens .cases ts₂ := hh.mayEnter (by omega)
  exact (obeys_cases ts₂).bind hcases fun cs ts₃ h₃ _ => .pure

theorem obeys_operation (ds : List Decorator) (ts : List Token) :
    Obeys text tokens .operation (fun caller => operation caller ds) ts
      (Grammar.operation ds ts) := by
  refine ⟨_, fun caller => operation.eq_1 caller ds, fun here hh =>
    (follows_name _ ts).bind fun n ts₁ h₁ _ => ?_⟩
  refine (follows_expect _ _ ts₁).bind fun _ ts₂ h₂ _ => ?_
  have hparameters : here.MayEnter tokens .members ts₂ := hh.mayEnter (by omega)
  refine (obeys_members .parameters ts₂).bind hparameters fun ps ts₃ h₃ _ => ?_
  refine (follows_expect _ _ ts₃).bind fun _ ts₄ h₄ _ => ?_
  have hresult : here.MayEnter tokens .expression ts₄ := hh.mayEnter (by omega)
  exact (obeys_expression ts₄).bind hresult fun e ts₅ h₅ _ => .pure

theorem obeys_operations (ts : List Token) :
    Obeys text tokens .operations operations ts (Grammar.interfaceOperations ts) := by
  rw [Grammar.interfaceOperations]
  refine ⟨_, operations.eq_1, fun here hh => .ite_mark (fun t us hts ht => ?_) (fun hm => ?_)⟩
  · subst hts
    rw [mark?_cons_of_eq ht]
    exact .pure
  · rw [hm]
    refine (obeys_decorators ts).bind (hh.mayEnter_same (by decide)) fun ds ts₁ h₁ _ => ?_
    have hword : Follows text tokens here _ ts₁ _ := follows_optionalWord "op" ts₁
    dsimp only
    generalize Grammar.optionalWord "op" ts₁ = found at hword
    obtain ⟨given, ts₂, h₂⟩ := found
    have hoperation : here.MayEnter tokens .operation ts₂ :=
      hh.mayEnter_of_le (by omega) (by decide)
    refine hword.behind ((obeys_operation ds ts₂).bind hoperation fun first ts₃ h₃ _ => ?_)
    refine (follows_separator _ _ ts₃).bind fun _ ts₄ h₄ _ => ?_
    have hlt : ts₄.length < ts.length := by omega
    exact (obeys_operations ts₄).bind (hh.mayEnter hlt) fun others ts₅ h₅ _ => .pure
termination_by ts.length

theorem obeys_interface (ds : List Decorator) (ts : List Token) :
    Obeys text tokens .interface (fun caller => interface caller ds) ts
      (Grammar.interface ds ts) := by
  refine ⟨_, fun caller => interface.eq_1 caller ds, fun here hh =>
    (follows_name _ ts).bind fun n ts₁ h₁ _ => ?_⟩
  refine (follows_expect _ _ ts₁).bind fun _ ts₂ h₂ _ => ?_
  have hoperations : here.MayEnter tokens .operations ts₂ := hh.mayEnter (by omega)
  exact (obeys_operations ts₂).bind hoperations fun os ts₃ h₃ _ => .pure

theorem obeys_variants (ts : List Token) :
    Obeys text tokens .variants variants ts (Grammar.unionVariants ts) := by
  rw [Grammar.unionVariants]
  refine ⟨_, variants.eq_1, fun here hh => .ite_mark (fun t us hts ht => ?_) (fun hm => ?_)⟩
  · subst hts
    rw [mark?_cons_of_eq ht]
    exact .pure
  · rw [hm]
    refine (obeys_decorators ts).bind (hh.mayEnter_same (by decide)) fun _ ts₁ h₁ _ => ?_
    refine (follows_key _ ts₁).bind fun k ts₂ h₂ _ => ?_
    refine (follows_expect _ _ ts₂).bind fun _ ts₃ h₃ _ => ?_
    have htype : here.MayEnter tokens .expression ts₃ := hh.mayEnter (by omega)
    refine (obeys_expression ts₃).bind htype fun e ts₄ h₄ _ => ?_
    refine (follows_separator _ _ ts₄).bind fun _ ts₅ h₅ _ => ?_
    have hlt : ts₅.length < ts.length := by omega
    exact (obeys_variants ts₅).bind (hh.mayEnter hlt) fun others ts₆ h₆ _ => .pure
termination_by ts.length

theorem obeys_union (ds : List Decorator) (ts : List Token) :
    Obeys text tokens .union (fun caller => union caller ds) ts (Grammar.union ds ts) := by
  refine ⟨_, fun caller => union.eq_1 caller ds, fun here hh =>
    (follows_name _ ts).bind fun n ts₁ h₁ _ => ?_⟩
  refine (follows_expect _ _ ts₁).bind fun _ ts₂ h₂ _ => ?_
  have hvariants : here.MayEnter tokens .variants ts₂ := hh.mayEnter (by omega)
  exact (obeys_variants ts₂).bind hvariants fun vs ts₃ h₃ _ => .pure

-- These have no rule of their own: they stand in the entry of their statement.
theorem follows_importPath (ts : List Token) :
    Follows text tokens caller importPath ts (Grammar.importPath ts) := by
  refine (follows_quoted _ ts).bind fun path ts₁ h₁ _ => ?_
  exact (follows_expect _ _ ts₁).bind fun _ ts₂ h₂ _ => .pure

theorem follows_usingName (ts : List Token)
    (hc : caller.MayEnter tokens .dottedName ts) :
    Follows text tokens caller (usingName caller) ts (Grammar.usingName ts) := by
  refine (obeys_dottedName ts).bind hc fun n ts₁ h₁ _ => ?_
  exact (follows_expect _ _ ts₁).bind fun _ ts₂ h₂ _ => .pure

theorem follows_bareOperation (ds : List Decorator) (ts : List Token)
    (hc : caller.MayEnter tokens .operation ts) :
    Follows text tokens caller (bareOperation caller ds) ts (Grammar.bareOperation ds ts) := by
  refine (obeys_operation ds ts).bind hc fun o ts₁ h₁ _ => ?_
  exact (follows_expect _ _ ts₁).bind fun _ ts₂ h₂ _ => .pure

theorem follows_typeAlias (ts : List Token)
    (hc : ∀ us : List Token, us.length < ts.length → caller.MayEnter tokens .expression us) :
    Follows text tokens caller (typeAlias caller) ts (Grammar.typeAlias ts) := by
  refine (follows_name _ ts).bind fun n ts₁ h₁ _ => ?_
  refine (follows_expect _ _ ts₁).bind fun _ ts₂ h₂ _ => ?_
  refine (obeys_expression ts₂).bind (hc ts₂ (by omega)) fun e ts₃ h₃ _ => ?_
  exact (follows_expect _ _ ts₃).bind fun _ ts₄ h₄ _ => .pure

end SchemaContract.Walk
