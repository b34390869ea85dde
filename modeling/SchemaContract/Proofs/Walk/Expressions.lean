import SchemaContract.Proofs.Walk.Follows

/-!
The rules of names and expressions as walks follow the rules of the grammar, entered by whichever
entry may enter them. The proofs call each other as the rules of the grammar do.
-/
namespace SchemaContract.Walk

open Entry
open Grammar (Fault MemberList mark?_cons_of_eq mark?_cases keywordType? dottedRest_of_none
  dottedRest_cons memberChain_of_none memberChain_cons named_of_some named_of_none)

variable {text : List Char} {tokens : Tokens} {α : Type} {a : Nat} {caller : Entry} {rule : Rule}
  {ts us : List Token}

theorem obeys_nameParts (start : String) (ts : List Token) :
    Obeys text tokens .nameParts (fun caller => nameParts caller start) ts
      (Grammar.dottedRest start ts) := by
  refine ⟨_, fun caller => nameParts.eq_1 caller start, fun here hh =>
    .ite_mark (fun t us hts ht => ?_) (fun hm => ?_)⟩
  · subst hts
    rw [dottedRest_cons ht]
    refine (follows_name _ us).bind fun part vs h _ => ?_
    have hlt : vs.length < (t :: us).length := Nat.lt_succ_of_lt h
    exact ((obeys_nameParts _ vs).follows (hh.mayEnter hlt)).kept fun _ => ⟨rfl, rfl⟩
  · rw [dottedRest_of_none hm]
    exact .pure
termination_by ts.length

theorem obeys_dottedName (ts : List Token) :
    Obeys text tokens .dottedName dottedName ts (Grammar.dottedName ts) := by
  refine ⟨_, dottedName.eq_1, fun here hh => ?_⟩
  refine (follows_name _ ts).bind fun start us h _ => ?_
  exact ((obeys_nameParts start us).follows (hh.mayEnter h)).kept fun _ => ⟨rfl, rfl⟩

theorem obeys_memberChain (base : Expression) (ts : List Token) :
    Obeys text tokens .memberChain (fun caller => memberChain caller base) ts
      (Grammar.memberChain base ts) := by
  refine ⟨_, fun caller => memberChain.eq_1 caller base, fun here hh =>
    .ite_mark (fun t us hts ht => ?_) (fun hm => ?_)⟩
  · subst hts
    rw [memberChain_cons ht]
    refine (follows_name _ us).bind fun part vs h _ => ?_
    have hlt : vs.length < (t :: us).length := Nat.lt_succ_of_lt h
    exact ((obeys_memberChain _ vs).follows (hh.mayEnter hlt)).kept fun _ => ⟨rfl, rfl⟩
  · rw [memberChain_of_none hm]
    exact .pure
termination_by ts.length

/-- Behind a name that begins an expression. -/
theorem follows_reference (n : String) (ts : List Token) {caller : Entry}
    (hc : caller.MayEnter tokens .memberChain ts) :
    Follows text tokens caller
      (do
        let chain ← memberChain caller (.reference n)
        if isMark .less (← current).kind? then fail .templateArguments else pure chain)
      ts (Grammar.reference n ts) := by
  unfold Grammar.reference
  refine (obeys_memberChain _ ts).bind hc fun chain us h _ => follows_current.behind ?_
  rcases mark?_cases .less us with hm | ⟨t, vs, rfl, ht⟩
  · rw [isMark_cellOf_of_none hm]
    simp only [hm]
    exact .pure
  · rw [if_pos (by simp [isMark, cellOf, ht])]
    simp only [mark?_cons_of_eq ht]
    exact follows_fail _

theorem obeys_brackets (element : Expression) (ts : List Token) :
    Obeys text tokens .brackets (fun caller => brackets caller element) ts
      (.ok (Grammar.arrayBrackets element ts)) := by
  fun_induction Grammar.arrayBrackets element ts with
  | case1 element t u us hm ih =>
    refine ⟨_, fun caller => brackets.eq_1 caller element, fun here hh =>
      follows_current.behind ?_⟩
    rw [if_pos (by simp [isMark, cellOf, hm.1])]
    refine (follows_ahead t (u :: us)).behind ?_
    rw [if_pos (by simp [isMark, cellOf, hm.2])]
    refine (follows_advance [t, u] us).behind ?_
    have hlt : us.length < (t :: u :: us).length := by simp only [List.length_cons]; omega
    exact (ih.follows (hh.mayEnter hlt)).kept fun _ => ⟨rfl, rfl⟩
  | case2 element t u us hm =>
    refine ⟨_, fun caller => brackets.eq_1 caller element, fun here hh =>
      follows_current.behind ?_⟩
    split
    · next ht =>
      refine (follows_ahead t (u :: us)).behind ?_
      have hnot : ¬ isMark .rightBracket (cellOf tokens (u :: us)).kind? = true := by
        intro hu
        exact hm ⟨by simpa [isMark, cellOf] using ht, by simpa [isMark, cellOf] using hu⟩
      rw [if_neg hnot]
      exact .pure
    · exact .pure
  | case3 element ts hshort =>
    refine ⟨_, fun caller => brackets.eq_1 caller element, fun here hh =>
      follows_current.behind ?_⟩
    rcases ts with _ | ⟨t, _ | ⟨u, us⟩⟩
    · exact .pure
    · split
      · exact (follows_ahead t []).behind .pure
      · exact .pure
    · exact absurd rfl (hshort t u us)

mutual

theorem obeys_expression (ts : List Token) :
    Obeys text tokens .expression expression ts (Grammar.expression ts) := by
  rw [Grammar.expression]
  refine ⟨_, expression.eq_1, fun here hh => ?_⟩
  have hbar : Follows text tokens here _ ts _ := follows_optionalMark .pipe ts
  generalize Grammar.optionalMark .pipe ts = found at hbar
  obtain ⟨bar, ts₁, h₁⟩ := found
  refine hbar.behind ?_
  have hfirst : here.MayEnter tokens .intersection ts₁ :=
    hh.mayEnter_of_le (Nat.le_of_lt_succ h₁) (by decide)
  refine (obeys_intersection ts₁).bind hfirst fun first ts₂ h₂ _ => ?_
  have hlt : ts₂.length < ts.length := by omega
  exact (obeys_unionOptions ts₂).bind (hh.mayEnter hlt) fun others ts₃ h₃ _ => .pure
termination_by 8 * ts.length + 3

theorem obeys_unionOptions (ts : List Token) :
    Obeys text tokens .unionOptions unionOptions ts (Grammar.unionOptions ts) := by
  rw [Grammar.unionOptions]
  refine ⟨_, fun caller => unionOptions.eq_1 caller, fun here hh =>
    .ite_mark (fun t us hts ht => ?_) (fun hm => ?_)⟩
  · subst hts
    rw [mark?_cons_of_eq ht]
    refine (obeys_intersection us).bind (hh.mayEnter (by simp)) fun option ts₂ h₂ _ => ?_
    have hlt : ts₂.length < (t :: us).length := Nat.lt_succ_of_lt h₂
    exact (obeys_unionOptions ts₂).bind (hh.mayEnter hlt) fun others ts₃ h₃ _ => .pure
  · rw [hm]
    exact .pure
termination_by 8 * ts.length

theorem obeys_intersection (ts : List Token) :
    Obeys text tokens .intersection intersection ts (Grammar.intersection ts) := by
  rw [Grammar.intersection]
  refine ⟨_, intersection.eq_1, fun here hh => ?_⟩
  refine (obeys_operand ts).bind (hh.mayEnter_same (by decide)) fun first ts₁ h₁ _ => ?_
  exact (obeys_intersectionOptions ts₁).bind (hh.mayEnter h₁) fun others ts₂ h₂ _ => .pure
termination_by 8 * ts.length + 2

theorem obeys_intersectionOptions (ts : List Token) :
    Obeys text tokens .intersectionOptions intersectionOptions ts
      (Grammar.intersectionOptions ts) := by
  rw [Grammar.intersectionOptions]
  refine ⟨_, fun caller => intersectionOptions.eq_1 caller, fun here hh =>
    .ite_mark (fun t us hts ht => ?_) (fun hm => ?_)⟩
  · subst hts
    rw [mark?_cons_of_eq ht]
    refine (obeys_operand us).bind (hh.mayEnter (by simp)) fun option ts₂ h₂ _ => ?_
    have hlt : ts₂.length < (t :: us).length := Nat.lt_succ_of_lt h₂
    exact (obeys_intersectionOptions ts₂).bind (hh.mayEnter hlt) fun others ts₃ h₃ _ => .pure
  · rw [hm]
    exact .pure
termination_by 8 * ts.length

theorem obeys_operand (ts : List Token) :
    Obeys text tokens .operand operand ts (Grammar.operand ts) := by
  rw [Grammar.operand]
  refine ⟨_, operand.eq_1, fun here hh => ?_⟩
  refine (obeys_primary ts).bind (hh.mayEnter_same (by decide)) fun element ts₁ h₁ _ => ?_
  exact ((obeys_brackets element ts₁).follows (hh.mayEnter h₁)).kept fun _ => ⟨rfl, rfl⟩
termination_by 8 * ts.length + 1

theorem obeys_primary (ts : List Token) :
    Obeys text tokens .primary primary ts (Grammar.primary ts) := by
  refine ⟨_, primary.eq_1, fun here hh => follows_current.behind ?_⟩
  cases ts with
  | nil =>
    rw [Grammar.primary]
    exact follows_fail _
  | cons t us =>
    have hadvance : Follows text tokens here (advance 1) (t :: us) (.ok (.before () us)) :=
      follows_advance [t] us
    have hlt : us.length < (t :: us).length := Nat.lt_succ_self _
    rw [Grammar.primary, cellOf]
    cases t.kind with
    | number value => exact hadvance.behind .pure
    | text value => exact hadvance.behind .pure
    | truth value => exact hadvance.behind .pure
    | name n =>
      refine hadvance.behind ?_
      cases hk : keywordType? n with
      | some keyword =>
        simp only [named_of_some hk]
        exact .pure
      | none =>
        simp only [named_of_none hk]
        exact follows_reference n us (hh.mayEnter hlt)
    | mark m =>
      cases m with
      | leftBracket =>
        refine hadvance.behind ?_
        exact (follows_listing _ _ us (hh.mayEnter hlt)).bind fun elements ts₂ h₂ _ => .pure
      | leftBrace =>
        refine hadvance.behind ?_
        exact (obeys_members .body us).bind (hh.mayEnter hlt) fun ms ts₂ h₂ _ => .pure
      | leftParen =>
        refine hadvance.behind ?_
        refine (obeys_expression us).bind (hh.mayEnter hlt) fun inside ts₂ h₂ _ => ?_
        exact (follows_expect _ _ ts₂).bind fun _ ts₃ h₃ _ => .pure
      | _ => exact follows_fail _
termination_by 8 * ts.length

theorem follows_listing (close : Mark) (what : Expectation) (ts : List Token) {caller : Entry}
    (hc : caller.MayEnter tokens .items ts) :
    Follows text tokens caller (listing caller close what) ts (Grammar.listing close what ts) := by
  rw [listing, Grammar.listing]
  refine .ite_mark (fun t us hts ht => ?_) (fun hm => ?_)
  · subst hts
    rw [mark?_cons_of_eq ht]
    exact .pure
  · rw [hm]
    exact (obeys_items close what ts).follows hc
termination_by 8 * ts.length + 5

theorem obeys_items (close : Mark) (what : Expectation) (ts : List Token) :
    Obeys text tokens .items (fun caller => items caller close what) ts
      (Grammar.items close what ts) := by
  rw [Grammar.items]
  refine ⟨_, fun caller => items.eq_1 caller close what, fun here hh => ?_⟩
  refine (obeys_expression ts).bind (hh.mayEnter_same (by decide)) fun item ts₁ h₁ _ => ?_
  refine .ite_mark (fun t us hts ht => ?_) (fun hm => ?_)
  · subst hts
    simp only [mark?_cons_of_eq ht]
    have hlt : us.length < ts.length := Nat.lt_of_succ_lt h₁
    exact (obeys_items close what us).bind (hh.mayEnter hlt) fun others ts₃ h₃ _ => .pure
  · simp only [hm]
    exact (follows_expect close what ts₁).bind fun _ ts₃ h₃ _ => .pure
termination_by 8 * ts.length + 4

theorem obeys_members (place : MemberList) (ts : List Token) :
    Obeys text tokens .members (fun caller => members caller place) ts
      (Grammar.members place ts) := by
  rw [Grammar.members]
  refine ⟨_, fun caller => members.eq_1 caller place, fun here hh =>
    .ite_mark (fun t us hts ht => ?_) (fun hm => ?_)⟩
  · subst hts
    rw [mark?_cons_of_eq ht]
    exact .pure
  · rw [hm]
    refine (obeys_decorators ts).bind (hh.mayEnter_same (by decide)) fun ds ts₁ h₁ _ => ?_
    have hmember : here.MayEnter tokens .property ts₁ :=
      hh.mayEnter_of_le (Nat.le_of_lt_succ h₁) (by decide)
    refine (follows_member ds ts₁ hmember).bind fun first ts₂ h₂ _ => ?_
    refine (follows_separator _ _ ts₂).bind fun _ ts₃ h₃ _ => ?_
    have hlt : ts₃.length < ts.length := by omega
    exact (obeys_members place ts₃).bind (hh.mayEnter hlt) fun others ts₄ h₄ _ => .pure
termination_by 8 * ts.length + 2

theorem follows_member (ds : List Decorator) (ts : List Token) {caller : Entry}
    (hc : caller.MayEnter tokens .property ts) :
    Follows text tokens caller (member caller ds) ts (Grammar.member ds ts) := by
  rw [member]
  refine .ite_mark (fun t us hts ht => ?_) (fun hm => ?_)
  · subst hts
    rw [Grammar.member, mark?_cons_of_eq ht]
    have htarget : caller.MayEnter tokens .expression us := hc.of_lt (Nat.lt_succ_self _)
    exact (obeys_expression us).bind htarget fun target ts₂ h₂ _ => .pure
  · exact (obeys_property ds ts hm).follows hc
termination_by 8 * ts.length + 1

/-- A member that is not spread is a property. -/
theorem obeys_property (ds : List Decorator) (ts : List Token)
    (hm : Grammar.mark? .ellipsis ts = none) :
    Obeys text tokens .property (fun caller => property caller ds) ts (Grammar.member ds ts) := by
  rw [Grammar.member, hm]
  refine ⟨_, fun caller => property.eq_1 caller ds, fun here hh =>
    (follows_key .propertyName ts).bind fun key ts₁ h₁ _ => ?_⟩
  have hquestion : Follows text tokens here _ ts₁ _ := follows_optionalMark .question ts₁
  dsimp only
  generalize Grammar.optionalMark .question ts₁ = found at hquestion
  obtain ⟨optional, ts₂, h₂⟩ := found
  refine hquestion.behind ((follows_expect .colon .propertyColon ts₂).bind fun _ ts₃ h₃ _ => ?_)
  have hlt : ts₃.length < ts.length := by omega
  refine (obeys_expression ts₃).bind (hh.mayEnter hlt) fun type ts₄ h₄ _ => ?_
  have hdefault : here.MayEnter tokens .expression ts₄ := hh.mayEnter (by omega)
  exact (follows_default ts₄ hdefault).bind fun default? ts₅ h₅ _ => .pure
termination_by 8 * ts.length

theorem follows_default (ts : List Token) {caller : Entry}
    (hc : caller.MayEnter tokens .expression ts) :
    Follows text tokens caller caller.default ts (Grammar.default ts) := by
  rw [Entry.default, Grammar.default]
  refine .ite_mark (fun t us hts ht => ?_) (fun hm => ?_)
  · subst hts
    rw [mark?_cons_of_eq ht]
    exact (obeys_expression us).bind (hc.of_lt (Nat.lt_succ_self _)) fun e ts₂ h₂ _ => .pure
  · rw [hm]
    exact .pure
termination_by 8 * ts.length

theorem obeys_decorators (ts : List Token) :
    Obeys text tokens .decorators decorators ts (Grammar.decorators ts) := by
  rw [Grammar.decorators]
  refine ⟨_, fun caller => decorators.eq_1 caller, fun here hh =>
    .ite_mark (fun t us hts ht => ?_) (fun hm => ?_)⟩
  · subst hts
    rw [mark?_cons_of_eq ht]
    have hlt : us.length < (t :: us).length := Nat.lt_succ_self _
    refine (obeys_dottedName us).bind (hh.mayEnter hlt) fun target ts₂ h₂ _ => ?_
    have harguments : here.MayEnter tokens .items ts₂ := hh.mayEnter (Nat.lt_succ_of_lt h₂)
    refine (follows_arguments ts₂ harguments).bind fun es ts₃ h₃ _ => ?_
    have hothers : here.MayEnter tokens .decorators ts₃ :=
      hh.mayEnter (by simp only [List.length_cons]; omega)
    exact (obeys_decorators ts₃).bind hothers fun others ts₄ h₄ _ => .pure
  · rw [hm]
    exact .pure
termination_by 8 * ts.length

theorem follows_arguments (ts : List Token) {caller : Entry}
    (hc : caller.MayEnter tokens .items ts) :
    Follows text tokens caller (arguments caller) ts (Grammar.arguments ts) := by
  rw [arguments, Grammar.arguments]
  refine .ite_mark (fun t us hts ht => ?_) (fun hm => ?_)
  · subst hts
    rw [mark?_cons_of_eq ht]
    have hlt : us.length < (t :: us).length := Nat.lt_succ_self _
    exact (follows_listing _ _ us (hc.of_lt hlt)).kept fun _ => ⟨rfl, rfl⟩
  · rw [hm]
    exact .pure
termination_by 8 * ts.length

end

end SchemaContract.Walk
