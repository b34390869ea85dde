import SchemaContract.Proofs.Grammar.SoundProgram

/-!
Readings that fail, and the tokens in front of the fault. Nothing in front of a fault is to blame:
some tokens can be put behind to make it what the rule reads. There is one completion for each place
where a rule of expressions can give up, and what is open around it is closed from the inside out.
-/
namespace SchemaContract.Grammar

variable {α β : Type} {a b : Nat} {P Q : List Token → Prop} {ts us rest : List Token}

/-- If the reading fails, the tokens in front of the fault go on to some of a kind. -/
def Viable (P : List Token → Prop) (ts : List Token) (x : Except Fault β) : Prop :=
  ∀ fault, x = .error fault → ∃ used more, ts = used ++ fault.rest ∧ P (used ++ more)

theorem viable_ok {v : β} : Viable P ts (.ok v) := by
  intro fault h
  cases h

/-- A fault at the first token. -/
theorem viable_error {cause : SyntaxError.Cause} (h : ∃ more, P more) :
    Viable P ts (.error ⟨cause, ts⟩ : Except Fault β) := by
  rintro fault ⟨⟩
  obtain ⟨more, h⟩ := h
  exact ⟨[], more, rfl, h⟩

theorem Viable.imp {x : Except Fault β} (h : Viable Q ts x) (hQ : ∀ us, Q us → P us) :
    Viable P ts x := by
  intro fault hx
  obtain ⟨used, more, hts, hq⟩ := h fault hx
  exact ⟨used, more, hts, hQ _ hq⟩

/-- What completes a part and what ends the whole behind it complete the whole. -/
theorem Viable.closed {R : α → List Token → Prop} {x : Except Fault β}
    (h : Viable (fun us => ∃ v, R v us) ts x) (hR : ∀ v us, R v us → ∃ more, P (us ++ more)) :
    Viable P ts x := by
  intro fault hx
  obtain ⟨used, more, hts, v, hv⟩ := h fault hx
  obtain ⟨others, hp⟩ := hR v _ hv
  exact ⟨used, more ++ others, hts, by rwa [← List.append_assoc]⟩

/-- What completes the last part completes the whole. -/
theorem Viable.part {R : α → List Token → Prop} {x : Except Fault β}
    (h : Viable (fun us => ∃ v, R v us) ts x) (hR : ∀ v us, R v us → P us) : Viable P ts x := by
  refine h.imp fun us hus => ?_
  obtain ⟨v, hv⟩ := hus
  exact hR v us hv

/-- Behind tokens that are read already. -/
theorem Viable.behind {x : Except Fault β} (h : Viable (fun vs => P (us ++ vs)) ts x) :
    Viable P (us ++ ts) x := by
  intro fault hx
  obtain ⟨used, more, rfl, hp⟩ := h fault hx
  exact ⟨us ++ used, more, by rw [List.append_assoc], by rwa [List.append_assoc]⟩

theorem Viable.behind_of_eq {x : Except Fault β} (hts : ts = us ++ rest)
    (h : Viable (fun vs => P (us ++ vs)) rest x) : Viable P ts x :=
  hts ▸ h.behind

theorem Viable.cons {x : Except Fault β} {t : Token} (h : Viable (fun vs => P (t :: vs)) ts x) :
    Viable P (t :: ts) x :=
  .behind_of_eq List.singleton_append.symm h

theorem Viable.bind {x : Except Fault (Found Token a α)} {f : Found Token a α → Except Fault β}
    (hx : Viable P ts x)
    (hf : ∀ v rest h, x = .ok ⟨v, rest, h⟩ → Viable P ts (f ⟨v, rest, h⟩)) :
    Viable P ts (x >>= f) := by
  cases x with
  | error fault => exact fun fault' h => hx fault' (by cases h; rfl)
  | ok found => exact hf _ _ _ rfl

theorem Viable.map {x : Except Fault α} {f : α → β} (h : Viable P ts x) :
    Viable P ts (x.map f) := by
  cases x with
  | error fault => exact fun fault' hf => h fault' (by cases hf; rfl)
  | ok v => exact viable_ok

theorem viable_mark {m : Mark} {what : Expectation} (h : ∃ more, P more) :
    Viable P ts (mark m what ts) := by
  unfold mark
  cases mark? m ts with
  | some found => exact viable_ok
  | none => exact viable_error h

theorem viable_name {what : Expectation} (h : ∃ more, P more) : Viable P ts (name what ts) := by
  cases ts with
  | nil => exact viable_error h
  | cons t ts =>
    rw [name]
    split
    · exact viable_ok
    · exact viable_error h

theorem viable_quoted {what : Expectation} (h : ∃ more, P more) :
    Viable P ts (quoted what ts) := by
  cases ts with
  | nil => exact viable_error h
  | cons t ts =>
    rw [quoted]
    split
    · exact viable_ok
    · exact viable_error h

theorem viable_key {what : Expectation} (h : ∃ more, P more) : Viable P ts (key what ts) := by
  cases ts with
  | nil => exact viable_error h
  | cons t ts =>
    rw [key]
    split
    · exact viable_ok
    · exact viable_ok
    · exact viable_error h

theorem viable_separator {close : Mark} {what : Expectation} (h : ∃ more, P more) :
    Viable P ts (separator close what ts) := by
  cases ts with
  | nil => exact viable_error h
  | cons t ts =>
    rw [separator]
    split
    · exact viable_ok
    split
    · exact viable_ok
    · exact viable_error h

/-- Tokens that some phrase of a kind is written as. -/
def WrittenAs (φ : α → Phrase) (ts : List Token) : Prop :=
  ∃ v, Written (φ v) ts

/-- The name that completes a phrase. -/
def filler : Token := ⟨.name "x", 0⟩

/-- A mark that completes a phrase. -/
def closer (m : Mark) : Token := ⟨.mark m, 0⟩

theorem written_filler_operand : Written (.operand (.reference "x")) [filler] :=
  .operand (.path (.reference rfl (by decide)))

theorem written_filler_intersection : Written (.intersection (.reference "x")) [filler] :=
  .intersection written_filler_operand .noIntersectionOption

theorem written_filler : Written (.expression (.reference "x")) [filler] :=
  .expression .absent written_filler_intersection .noUnionOption

theorem written_filler_member (ds : List Decorator) :
    Written (.member ds (.property ⟨.identifier "x", .reference "x", false, none, ds⟩))
      [filler, closer .colon, filler] :=
  .property rfl .absent rfl written_filler .noDefault

theorem viable_dottedRest {us : List Token} {start : String} (hs : WrittenName start us)
    (ts : List Token) :
    Viable (fun vs => ∃ n, WrittenName n (us ++ vs)) ts (dottedRest start ts) := by
  rcases mark?_cases .dot ts with hd | ⟨t, vs, rfl, ht⟩
  · rw [dottedRest_of_none hd]
    exact viable_ok
  · rw [dottedRest_cons ht]
    refine .cons (.bind (viable_name ⟨[filler], _, .dotted hs ht rfl⟩) fun part ws h hp => ?_)
    obtain ⟨u, rfl, hu⟩ := gives_name_iff.1 ⟨h, hp⟩
    have hothers := viable_dottedRest (.dotted hs ht hu) ws
    simp only [List.append_assoc] at hothers
    exact .cons (.bind hothers fun _ _ _ _ => viable_ok)
termination_by ts.length

theorem viable_dottedName (ts : List Token) :
    Viable (fun us => ∃ n, WrittenName n us) ts (dottedName ts) := by
  refine .bind (viable_name ⟨[filler], _, .single rfl⟩) fun start us h hn => ?_
  obtain ⟨t, rfl, ht⟩ := gives_name_iff.1 ⟨h, hn⟩
  exact .cons (.bind (viable_dottedRest (.single ht) us) fun _ _ _ _ => viable_ok)

theorem viable_memberChain {us : List Token} {base : Expression} (hs : WrittenPath base us)
    (ts : List Token) :
    Viable (fun vs => ∃ e, WrittenPath e (us ++ vs)) ts (memberChain base ts) := by
  rcases mark?_cases .dot ts with hd | ⟨t, vs, rfl, ht⟩
  · rw [memberChain_of_none hd]
    exact viable_ok
  · rw [memberChain_cons ht]
    refine .cons (.bind (viable_name ⟨[filler], _, .member hs ht rfl⟩) fun part ws h hp => ?_)
    obtain ⟨u, rfl, hu⟩ := gives_name_iff.1 ⟨h, hp⟩
    have hothers := viable_memberChain (.member hs ht hu) ws
    simp only [List.append_assoc] at hothers
    exact .cons (.bind hothers fun _ _ _ _ => viable_ok)
termination_by ts.length

/-- Behind a name that begins an expression. -/
theorem viable_named {t : Token} {n : String} (ht : t.kind = .name n) (ts : List Token) :
    Viable (fun us => WrittenAs .primary (t :: us)) ts (named n ts) := by
  cases hk : keywordType? n with
  | some keyword =>
    rw [named_of_some hk]
    exact viable_ok
  | none =>
    have hstart : WrittenPath (.reference n) [t] := .reference ht (keywordType?_eq_none_iff.1 hk)
    rw [named_of_none hk]
    refine .bind ((viable_memberChain hstart ts).part fun e us hw => ⟨e, .path hw⟩) ?_
    intro e rest h he
    obtain ⟨us, rfl, hw⟩ := before_memberChain hstart ⟨h, he⟩
    -- template arguments are refused behind the whole path
    dsimp only
    split
    · exact .behind (viable_error ⟨[], e, by simpa using Written.path hw⟩)
    · exact viable_ok

mutual

theorem viable_expression (ts : List Token) :
    Viable (WrittenAs .expression) ts (expression ts) := by
  rw [expression]
  obtain ⟨lead, hts, hlead⟩ := before_optionalMark .pipe ts
  generalize optionalMark .pipe ts = found at hts hlead
  obtain ⟨bar, ts₁, h₁⟩ := found
  obtain rfl : ts = lead ++ ts₁ := hts
  have hfirst := (viable_intersection ts₁).closed
    (P := fun us => WrittenAs .expression (lead ++ us)) fun e us hw =>
      ⟨[], _, .expression hlead hw .noUnionOption⟩
  refine .behind (.bind hfirst fun first ts₂ h₂ hx => ?_)
  obtain ⟨us, rfl, hw⟩ := Phrase.Given.written (φ := .intersection first) ⟨h₂, hx⟩
  have hothers := (viable_unionOptions ts₂).part
    (P := fun vs => WrittenAs .expression (lead ++ (us ++ vs))) fun es vs hws =>
      ⟨_, .expression hlead hw hws⟩
  exact .behind (.bind hothers fun _ _ _ _ => viable_ok)
termination_by 8 * ts.length + 3

theorem viable_unionOptions (ts : List Token) :
    Viable (WrittenAs .unionOptions) ts (unionOptions ts) := by
  rw [unionOptions]
  rcases mark?_cases .pipe ts with hm | ⟨t, us, rfl, ht⟩
  · rw [hm]
    exact viable_ok
  · rw [mark?_cons_of_eq ht]
    have hoption := (viable_intersection us).closed
      (P := fun vs => WrittenAs .unionOptions (t :: vs)) fun e vs hw =>
        ⟨[], _, .unionOption ht hw .noUnionOption⟩
    refine .cons (.bind hoption fun option ts₂ h₂ hx => ?_)
    obtain ⟨vs, rfl, hw⟩ := Phrase.Given.written (φ := .intersection option) ⟨h₂, hx⟩
    have hothers := (viable_unionOptions ts₂).part
      (P := fun ws => WrittenAs .unionOptions (t :: (vs ++ ws))) fun es ws hws =>
        ⟨_, .unionOption ht hw hws⟩
    exact .behind (.bind hothers fun _ _ _ _ => viable_ok)
termination_by 8 * ts.length

theorem viable_intersection (ts : List Token) :
    Viable (WrittenAs .intersection) ts (intersection ts) := by
  rw [intersection]
  have hfirst := (viable_operand ts).closed (P := WrittenAs .intersection) fun e us hw =>
    ⟨[], _, .intersection hw .noIntersectionOption⟩
  refine .bind hfirst fun first ts₁ h₁ hx => ?_
  obtain ⟨us, rfl, hw⟩ := Phrase.Given.written (φ := .operand first) ⟨h₁, hx⟩
  have hothers := (viable_intersectionOptions ts₁).part
    (P := fun vs => WrittenAs .intersection (us ++ vs)) fun es vs hws =>
      ⟨_, .intersection hw hws⟩
  exact .behind (.bind hothers fun _ _ _ _ => viable_ok)
termination_by 8 * ts.length + 2

theorem viable_intersectionOptions (ts : List Token) :
    Viable (WrittenAs .intersectionOptions) ts (intersectionOptions ts) := by
  rw [intersectionOptions]
  rcases mark?_cases .ampersand ts with hm | ⟨t, us, rfl, ht⟩
  · rw [hm]
    exact viable_ok
  · rw [mark?_cons_of_eq ht]
    have hoption := (viable_operand us).closed
      (P := fun vs => WrittenAs .intersectionOptions (t :: vs)) fun e vs hw =>
        ⟨[], _, .intersectionOption ht hw .noIntersectionOption⟩
    refine .cons (.bind hoption fun option ts₂ h₂ hx => ?_)
    obtain ⟨vs, rfl, hw⟩ := Phrase.Given.written (φ := .operand option) ⟨h₂, hx⟩
    have hothers := (viable_intersectionOptions ts₂).part
      (P := fun ws => WrittenAs .intersectionOptions (t :: (vs ++ ws))) fun es ws hws =>
        ⟨_, .intersectionOption ht hw hws⟩
    exact .behind (.bind hothers fun _ _ _ _ => viable_ok)
termination_by 8 * ts.length

theorem viable_operand (ts : List Token) : Viable (WrittenAs .operand) ts (operand ts) := by
  rw [operand]
  refine .bind ((viable_primary ts).part fun e us hw => ⟨e, .operand hw⟩) ?_
  exact fun _ _ _ _ => viable_ok
termination_by 8 * ts.length + 1

theorem viable_primary (ts : List Token) : Viable (WrittenAs .primary) ts (primary ts) := by
  have hfiller : ∃ more, WrittenAs .primary more :=
    ⟨[filler], _, .path (.reference rfl (by decide))⟩
  cases ts with
  | nil =>
    rw [primary]
    exact viable_error hfiller
  | cons t us =>
    rw [primary]
    cases ht : t.kind with
    | number value => exact viable_ok
    | text value => exact viable_ok
    | truth value => exact viable_ok
    | name n => exact .cons (viable_named ht us)
    | mark m =>
      cases m with
      | leftBracket =>
        have hlisting := (viable_listing .tuple us).part
          (P := fun vs => WrittenAs .primary (t :: vs)) fun es vs hw => ⟨_, .tuple ht hw⟩
        exact .cons (.bind hlisting fun _ _ _ _ => viable_ok)
      | leftBrace =>
        have hmembers := (viable_members .body us).part
          (P := fun vs => WrittenAs .primary (t :: vs)) fun ms vs hw => ⟨_, .model ht hw⟩
        exact .cons (.bind hmembers fun _ _ _ _ => viable_ok)
      | leftParen =>
        have hinside := (viable_expression us).closed
          (P := fun vs => WrittenAs .primary (t :: vs)) fun e vs hw =>
            ⟨[closer .rightParen], _, .group ht hw rfl⟩
        refine .cons (.bind hinside fun inside ts₂ h₂ hx => ?_)
        obtain ⟨vs, rfl, hw⟩ := before_expression ⟨h₂, hx⟩
        refine .behind (.bind (viable_mark ?_) fun _ _ _ _ => viable_ok)
        exact ⟨[closer .rightParen], _, .group ht hw rfl⟩
      | _ => exact viable_error hfiller
termination_by 8 * ts.length

theorem viable_listing (place : ItemList) (ts : List Token) :
    Viable (WrittenAs (.listing place)) ts (listing place.close place.ending ts) := by
  rw [listing]
  rcases mark?_cases place.close ts with hm | ⟨t, us, rfl, ht⟩
  · rw [hm]
    exact (viable_items place ts).part fun es us hw => ⟨es, .listing hw⟩
  · rw [mark?_cons_of_eq ht]
    exact viable_ok
termination_by 8 * ts.length + 5

theorem viable_items (place : ItemList) (ts : List Token) :
    Viable (WrittenAs (.items place)) ts (items place.close place.ending ts) := by
  rw [items]
  have hfirst := (viable_expression ts).closed (P := WrittenAs (.items place)) fun e us hw =>
    ⟨[closer place.close], _, .lastItem hw rfl⟩
  refine .bind hfirst fun item ts₁ h₁ hx => ?_
  obtain ⟨us, rfl, hw⟩ := before_expression ⟨h₁, hx⟩
  rcases mark?_cases .comma ts₁ with hm | ⟨t, vs, rfl, ht⟩
  · simp only [hm]
    refine .behind (.bind (viable_mark ?_) fun _ _ _ _ => viable_ok)
    exact ⟨[closer place.close], _, .lastItem hw rfl⟩
  · simp only [mark?_cons_of_eq ht]
    have hlt : vs.length < (us ++ t :: vs).length := Nat.lt_of_succ_lt h₁
    have hothers := (viable_items place vs).part
      (P := fun ws => WrittenAs (.items place) (us ++ t :: ws)) fun es ws hws =>
        ⟨_, .item hw ht hws⟩
    exact .behind (.cons (.bind hothers fun _ _ _ _ => viable_ok))
termination_by 8 * ts.length + 4

theorem viable_members (place : MemberList) (ts : List Token) :
    Viable (WrittenAs (.members place)) ts (members place ts) := by
  rw [members]
  rcases mark?_cases place.close ts with hm | ⟨t, us, rfl, ht⟩
  · rw [hm]
    have hdecorators := (viable_decorators ts).closed
      (P := WrittenAs (.members place)) fun ds us hds =>
        ⟨_, _, .lastMember hds (written_filler_member ds) (t := closer place.close) rfl⟩
    refine .bind hdecorators fun ds ts₁ h₁ hx => ?_
    obtain ⟨us, rfl, hds⟩ := before_decorators ⟨h₁, hx⟩
    have hmember := (viable_member ds ts₁).closed
      (P := fun vs => WrittenAs (.members place) (us ++ vs)) fun m vs hw =>
        ⟨[closer place.close], _, .lastMember hds hw rfl⟩
    refine .behind (.bind hmember fun first ts₂ h₂ hx => ?_)
    obtain ⟨vs, rfl, hw⟩ := Phrase.Given.written (φ := .member ds first) ⟨h₂, hx⟩
    refine .behind (.bind (viable_separator ?_) fun _ ts₃ h₃ hs => ?_)
    · exact ⟨[closer place.close], _, .lastMember hds hw rfl⟩
    obtain ⟨t, ws, rfl, ⟨ht, rfl⟩ | ⟨_, ht, rfl⟩⟩ := gives_separator_iff.1 ⟨h₃, hs⟩
    · have hlt : ws.length < (us ++ (vs ++ t :: ws)).length := by
        simp only [List.length_append, List.length_cons]
        omega
      have hothers := (viable_members place ws).part
        (P := fun xs => WrittenAs (.members place) (us ++ (vs ++ t :: xs))) fun ms xs hws =>
          ⟨_, .members hds hw ht hws⟩
      exact .cons (.bind hothers fun _ _ _ _ => viable_ok)
    · -- only looked at, so the list ends here
      refine .bind ?_ fun _ _ _ _ => viable_ok
      rw [members, mark?_cons_of_eq ht]
      exact viable_ok
  · rw [mark?_cons_of_eq ht]
    exact viable_ok
termination_by 8 * ts.length + 1

theorem viable_member (ds : List Decorator) (ts : List Token) :
    Viable (WrittenAs (.member ds)) ts (member ds ts) := by
  rw [member]
  rcases mark?_cases .ellipsis ts with hm | ⟨t, us, rfl, ht⟩
  · rw [hm]
    refine .bind (viable_key ⟨_, _, written_filler_member ds⟩) fun k ts₁ h₁ hk => ?_
    obtain ⟨t, rfl, ht⟩ := gives_key_iff.1 ⟨h₁, hk⟩
    obtain ⟨mark, hts, hmark⟩ := before_optionalMark .question ts₁
    dsimp only
    generalize optionalMark .question ts₁ = found at hts hmark
    obtain ⟨optional, ts₂, h₂⟩ := found
    refine .cons (.behind_of_eq hts (.bind (viable_mark ?_) fun _ ts₃ h₃ hc => ?_))
    · exact ⟨[closer .colon, filler], _, .property ht hmark rfl written_filler .noDefault⟩
    have hlt : ts₃.length < ts₁.length := Nat.lt_of_lt_of_le h₃ (Nat.le_of_lt_succ h₂)
    obtain ⟨u, rfl, hu⟩ := gives_mark_iff.1 ⟨h₃, hc⟩
    have htype := (viable_expression ts₃).closed
      (P := fun us => WrittenAs (.member ds) (t :: (mark ++ u :: us))) fun e us hw =>
        ⟨[], _, .property ht hmark hu hw .noDefault⟩
    refine .cons (.bind htype fun type ts₄ h₄ hx => ?_)
    have hlt₄ : ts₄.length < ts₁.length := Nat.lt_trans h₄ hlt
    obtain ⟨us, rfl, hw⟩ := before_expression ⟨h₄, hx⟩
    have hdefault := (viable_default ts₄).part
      (P := fun vs => WrittenAs (.member ds) (t :: (mark ++ u :: (us ++ vs)))) fun d vs hd =>
        ⟨_, .property ht hmark hu hw hd⟩
    exact .behind (.bind hdefault fun _ _ _ _ => viable_ok)
  · rw [mark?_cons_of_eq ht]
    have htarget := (viable_expression us).part
      (P := fun vs => WrittenAs (.member ds) (t :: vs)) fun e vs hw => ⟨_, .spread ht hw⟩
    exact .cons (.bind htarget fun _ _ _ _ => viable_ok)
termination_by 8 * ts.length

theorem viable_default (ts : List Token) : Viable (WrittenAs .default) ts (default ts) := by
  rw [default]
  rcases mark?_cases .equals ts with hm | ⟨t, us, rfl, ht⟩
  · rw [hm]
    exact viable_ok
  · rw [mark?_cons_of_eq ht]
    have hvalue := (viable_expression us).part
      (P := fun vs => WrittenAs .default (t :: vs)) fun e vs hw => ⟨_, .default ht hw⟩
    exact .cons (.bind hvalue fun _ _ _ _ => viable_ok)
termination_by 8 * ts.length

theorem viable_decorators (ts : List Token) :
    Viable (WrittenAs .decorators) ts (decorators ts) := by
  rcases mark?_cases .atSign ts with hm | ⟨t, us, rfl, ht⟩
  · rw [decorators, hm]
    exact viable_ok
  · exact .cons (viable_decorators_cons ht us)
termination_by 8 * ts.length

/-- Behind the first mark of decorators. -/
theorem viable_decorators_cons {t : Token} (ht : t.kind = .mark .atSign) (us : List Token) :
    Viable (fun vs => WrittenAs .decorators (t :: vs)) us (decorators (t :: us)) := by
  rw [decorators, mark?_cons_of_eq ht]
  have htarget := (viable_dottedName us).closed
    (P := fun vs => WrittenAs .decorators (t :: vs)) fun n vs hn =>
      ⟨[], _, .decorator ht hn .noArguments .noDecorator⟩
  refine .bind htarget fun target ts₂ h₂ hx => ?_
  obtain ⟨ns, rfl, hn⟩ := before_dottedName ⟨h₂, hx⟩
  have harguments := (viable_arguments ts₂).closed
    (P := fun vs => WrittenAs .decorators (t :: (ns ++ vs))) fun es vs hes =>
      ⟨[], _, .decorator ht hn hes .noDecorator⟩
  refine .behind (.bind harguments fun es ts₃ h₃ hx => ?_)
  obtain ⟨vs, rfl, hes⟩ := Phrase.Given.written (φ := .arguments es) ⟨h₃, hx⟩
  have hothers := (viable_decorators ts₃).part
    (P := fun ws => WrittenAs .decorators (t :: (ns ++ (vs ++ ws)))) fun ds ws hds =>
      ⟨_, .decorator ht hn hes hds⟩
  exact .behind (.bind hothers fun _ _ _ _ => viable_ok)
termination_by 8 * us.length + 7

theorem viable_arguments (ts : List Token) :
    Viable (WrittenAs .arguments) ts (arguments ts) := by
  rw [arguments]
  rcases mark?_cases .leftParen ts with hm | ⟨t, us, rfl, ht⟩
  · rw [hm]
    exact viable_ok
  · rw [mark?_cons_of_eq ht]
    have hlisting := (viable_listing .arguments us).part
      (P := fun vs => WrittenAs .arguments (t :: vs)) fun es vs hw => ⟨_, .arguments ht hw⟩
    exact .cons (.bind hlisting fun _ _ _ _ => viable_ok)
termination_by 8 * ts.length

end

end SchemaContract.Grammar
