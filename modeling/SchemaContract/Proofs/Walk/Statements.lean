import SchemaContract.Proofs.Walk.Declarations

/-!
What is skipped, and the rules of statements, as walks follow the rules of the grammar.
-/
namespace SchemaContract.Walk

open Entry
open Grammar (Fault mark?_cons_of_eq mark?_cases behindBlock behindBlock_length_lt recovered
  recovered_length_le Keyword)

variable {text : List Char} {tokens : Tokens} {α : Type} {a : Nat} {caller : Entry}

/-- What skipping a block finds: the tokens behind it, or none if it is not closed. -/
def behind (rest? : Option (List Token)) (h : ∀ rest ∈ rest?, rest.length < a) :
    Except Fault (Found Token a Unit) :=
  match rest? with
  | some rest => .ok ⟨(), rest, h rest rfl⟩
  | none => .error ⟨.openBrace, []⟩

theorem obeys_braces (depth : Nat) (ts : List Token) {rest? : Option (List Token)}
    (hrest : behindBlock depth ts = rest?) (h : ∀ rest ∈ rest?, rest.length < a) :
    Obeys text tokens .braces (fun caller => braces caller (depth + 1)) ts (behind rest? h) := by
  fun_induction behindBlock depth ts with
  | case1 depth =>
    subst hrest
    refine ⟨_, fun caller => braces.eq_1 caller _, fun here hh => follows_current.behind ?_⟩
    exact follows_fail _
  | case2 depth t ts hopen ih =>
    refine ⟨_, fun caller => braces.eq_1 caller _, fun here hh => follows_current.behind ?_⟩
    rw [cellOf, hopen]
    have hothers := (ih hrest).follows (hh.mayEnter (Nat.lt_succ_self _))
    exact (follows_advance [t] ts).behind hothers
  | case3 t ts hopen hclose =>
    subst hrest
    refine ⟨_, fun caller => braces.eq_1 caller _, fun here hh => follows_current.behind ?_⟩
    rw [cellOf, hclose]
    exact follows_advance [t] ts
  | case4 t ts hopen hclose depth ih =>
    refine ⟨_, fun caller => braces.eq_1 caller _, fun here hh => follows_current.behind ?_⟩
    rw [cellOf, hclose]
    have hothers := (ih hrest).follows (hh.mayEnter (Nat.lt_succ_self _))
    exact (follows_advance [t] ts).behind hothers
  | case5 depth t ts hopen hclose ih =>
    refine ⟨_, fun caller => braces.eq_1 caller _, fun here hh => follows_current.behind ?_⟩
    have hothers := (ih hrest).follows (hh.mayEnter (Nat.lt_succ_self _))
    rw [cellOf]
    split
    · next hk => exact absurd (Option.some.inj hk) hopen
    · next hk => exact absurd (Option.some.inj hk) hclose
    · next hk => cases hk
    · exact (follows_advance [t] ts).behind hothers

theorem obeys_braces_open {t : Token} {ts : List Token} (ht : t.kind = .mark .leftBrace)
    {rest? : Option (List Token)} (hrest : behindBlock 0 ts = rest?)
    (h : ∀ rest ∈ rest?, rest.length < a) :
    Obeys text tokens .braces (fun caller => braces caller 0) (t :: ts) (behind rest? h) := by
  refine ⟨_, fun caller => braces.eq_1 caller 0, fun here hh => follows_current.behind ?_⟩
  rw [cellOf, ht]
  refine (follows_advance [t] ts).behind ?_
  exact (obeys_braces 0 ts hrest h).follows (hh.mayEnter (Nat.lt_succ_self _))

theorem obeys_projection (ts : List Token) :
    Obeys text tokens .projection projection ts (Grammar.projection ts) := by
  induction ts with
  | nil =>
    refine ⟨_, projection.eq_1, fun here hh => follows_current.behind ?_⟩
    exact follows_fail _
  | cons t ts ih =>
    rw [Grammar.projection]
    refine ⟨_, projection.eq_1, fun here hh => follows_current.behind ?_⟩
    by_cases hopen : t.kind = .mark .leftBrace
    · rw [if_pos hopen, cellOf, hopen]
      have hbraces : here.MayEnter tokens .braces (t :: ts) := hh.mayEnter_same (by decide)
      dsimp only
      split
      · next rest hrest =>
        have hlt : rest.length < ts.length + 1 := Nat.lt_succ_of_lt (behindBlock_length_lt hrest)
        refine Obeys.follows (w := fun caller => braces caller 0) ?_ hbraces
        exact obeys_braces_open hopen hrest fun _ h => Option.some.inj h ▸ hlt
      · next hrest =>
        refine Obeys.follows (w := fun caller => braces caller 0) ?_ hbraces
        exact obeys_braces_open hopen hrest (by simp)
    · have hothers := ih.follows (hh.mayEnter (Nat.lt_succ_self _))
      rw [if_neg hopen, cellOf]
      split
      · next hk => exact absurd (Option.some.inj hk) hopen
      · next hk => cases hk
      · refine (follows_advance [t] ts).behind ?_
        exact hothers.kept fun _ => ⟨rfl, rfl⟩

theorem follows_despiteFault {w : Walk Unit} {ts rest : List Token} {b : Nat}
    {rest? : Option (List Token)} {h : ∀ rest ∈ rest?, rest.length < a}
    (hw : Follows text tokens caller w ts (behind rest? h)) (hrest : rest?.getD [] = rest)
    (hlt : rest.length < b) :
    Follows text tokens caller (despiteFault w) ts (.ok ⟨(), rest, hlt⟩) := by
  subst hrest
  intro hts
  obtain ⟨hleft, events, hsound, hw⟩ := hw hts
  have hrest : left (behind rest? h) = rest?.getD [] := by cases rest? <;> rfl
  rw [hrest] at hleft hw
  refine ⟨hleft, events, hsound, fun record => ?_⟩
  change (w.outcome _ _).map _ = _
  rw [hw]
  cases rest? <;> rfl

theorem Follows.index {f : Nat → Walk α} {ts : List Token}
    {reading : Except Fault (Found Token a α)}
    (h : Follows text tokens caller (f (tokens.list.length - ts.length)) ts reading) :
    Follows text tokens caller (get >>= fun s => f s.index) ts reading := by
  intro hts
  obtain ⟨hleft, events, hsound, hw⟩ := h hts
  refine ⟨hleft, events, hsound, fun record => ?_⟩
  rw [outcome_bind, outcome_get]
  exact hw record

/-- Behind the first token of what is skipped, or at a first one that is no closing brace. -/
theorem obeys_recover (start : Nat) (ts : List Token) {rest : List Token}
    (hrest : recovered ts = rest) (hlt : rest.length < a)
    (hstart : start + ts.length < tokens.list.length ∨
      start + ts.length = tokens.list.length ∧ Grammar.mark? .rightBrace ts = none) :
    Obeys text tokens .recover (fun caller => recover caller start) ts
      (.ok ⟨(), rest, hlt⟩) := by
  fun_induction recovered ts with
  | case1 =>
    subst hrest
    exact ⟨_, fun caller => recover.eq_1 caller start, fun here hh => follows_current.behind .pure⟩
  | case2 t ts hsemicolon =>
    subst hrest
    refine ⟨_, fun caller => recover.eq_1 caller start, fun here hh => follows_current.behind ?_⟩
    rw [cellOf, hsemicolon]
    exact follows_advance [t] ts
  | case3 t ts _ hopen =>
    refine ⟨_, fun caller => recover.eq_1 caller start, fun here hh => follows_current.behind ?_⟩
    rw [cellOf, hopen]
    have hblock : Obeys text tokens .braces _ (t :: ts) _ :=
      obeys_braces_open hopen rfl fun _ hrest => behindBlock_length_lt hrest
    exact follows_despiteFault (hblock.follows (hh.mayEnter_same (by decide))) hrest hlt
  | case4 t ts _ _ hclose =>
    subst hrest
    refine ⟨_, fun caller => recover.eq_1 caller start, fun here hh => follows_current.behind ?_⟩
    rw [cellOf, hclose]
    have hon : start + (t :: ts).length < tokens.list.length :=
      hstart.resolve_right fun h => by simp [mark?_cons_of_eq hclose] at h
    refine .index (f := fun index => if index = start then advance 1 else pure ()) ?_
    rw [if_neg (by omega)]
    exact .pure
  | case5 t ts hsemicolon hopen hclose ih =>
    refine ⟨_, fun caller => recover.eq_1 caller start, fun here hh => follows_current.behind ?_⟩
    have hon : start + ts.length < tokens.list.length := by
      simp only [List.length_cons] at hstart
      omega
    have hothers := (ih hrest (.inl hon)).follows (hh.mayEnter (Nat.lt_succ_self _))
    rw [cellOf]
    split
    · next hk => cases hk
    · next hk => exact absurd (Option.some.inj hk) hsemicolon
    · next hk => exact absurd (Option.some.inj hk) hopen
    · next hk => exact absurd (Option.some.inj hk) hclose
    · exact (follows_advance [t] ts).behind hothers

/-- From the first token of what is skipped on. A closing brace there is skipped itself. -/
theorem obeys_recover_start (t : Token) (ts : List Token) (hts : t :: ts <:+ tokens.list)
    (hlt : (Grammar.skipStatement t ts).length < a) :
    Obeys text tokens .recover
      (fun caller => recover caller (tokens.list.length - (t :: ts).length)) (t :: ts)
      (.ok ⟨(), Grammar.skipStatement t ts, hlt⟩) := by
  by_cases hclose : t.kind = .mark .rightBrace
  · have hrest : Grammar.skipStatement t ts = ts := if_pos hclose
    refine ⟨_, fun caller => recover.eq_1 caller _, fun here hh => follows_current.behind ?_⟩
    rw [cellOf, hclose]
    refine .index (f := fun index => if index = _ then advance 1 else pure ()) ?_
    rw [if_pos rfl]
    simp only [hrest]
    exact follows_advance [t] ts
  · have hrest : Grammar.skipStatement t ts = recovered (t :: ts) := if_neg hclose
    have hle := hts.length_le
    refine obeys_recover _ _ hrest.symm hlt (.inr ⟨by omega, ?_⟩)
    exact Grammar.mark?_cons_eq_none_iff.2 hclose

theorem follows_skipped (t : Token) (ts : List Token)
    (hc : caller.MayEnter tokens .recover (t :: ts)) :
    Follows text tokens caller (skipped caller) (t :: ts) (.ok (Grammar.skipped t ts)) := by
  intro hts
  have hlt := Grammar.skipStatement_length_lt t ts
  refine Follows.index (f := fun start => recover caller start >>= fun _ => pure Statement.invalid)
    ?_ hts
  exact ((obeys_recover_start t ts hts hlt).follows hc).behind .pure

theorem follows_behindKeyword {w : Walk α} {ts : List Token}
    {reading : Except Fault (Found Token ts.length α)}
    (hw : Follows text tokens caller w ts reading) (t : Token) (wrap : α → Statement) :
    Follows text tokens caller (advance 1 >>= fun _ => wrap <$> w) (t :: ts)
      (Grammar.behindKeyword (t := t) wrap reading) := by
  refine (follows_advance [t] ts).behind ?_
  have hmap := hw.map (f := wrap) (g := fun found => (found.map wrap).lax) fun _ => ⟨rfl, rfl⟩
  cases reading <;> exact hmap

theorem follows_behindKeyword_id {w : Walk Statement} {ts : List Token}
    {reading : Except Fault (Found Token ts.length Statement)}
    (hw : Follows text tokens caller w ts reading) (t : Token) :
    Follows text tokens caller (advance 1 >>= fun _ => w) (t :: ts)
      (Grammar.behindKeyword (t := t) id reading) := by
  have hid := follows_behindKeyword hw t id
  rwa [id_map] at hid

theorem fail_bind {β : Type} (cause : SyntaxError.Cause) (f : α → Walk β) :
    fail cause >>= f = fail cause := by
  simp only [fail, bind_assoc]
  rfl

/-- A block by its first statement, behind which it goes on as a block. -/
theorem block_eq (caller : Entry) :
    block caller = (do
      let here ← enter caller .statements
      let kind? := (← current).kind?
      if kind? = none then fail (.expected .namespaceEnd)
      else if isMark .rightBrace kind? then
        closeBlock
        return []
      else
        let first ← statement here
        (first :: ·) <$> block here) := by
  rw [block, statements]
  simp only [bind_assoc]
  refine bind_congr fun here => bind_congr fun cell => ?_
  by_cases hend : cell.kind? = none
  · simp only [if_pos hend, if_true, fail_bind]
  rw [if_neg hend, if_neg hend]
  by_cases hclose : isMark .rightBrace cell.kind? = true
  · simp only [hclose, Bool.and_true, if_true, pure_bind]
  · simp only [hclose, Bool.and_true, Bool.false_eq_true, if_false, block, map_eq_pure_bind,
      bind_assoc, pure_bind]

theorem follows_declaration_nil (ds : List Decorator) {h : 0 < a}
    (hc : caller.MayEnter tokens .recover []) :
    Follows text tokens caller (declaration caller ds) [] (.ok ⟨.invalid, [], h⟩) := by
  rw [declaration]
  refine (follows_take_of_not rfl).behind (follows_current.behind ?_)
  refine Follows.index
    (f := fun start => recover caller start >>= fun _ => pure Statement.invalid) ?_
  exact ((obeys_recover _ [] rfl h (.inr ⟨rfl, rfl⟩)).follows hc).behind .pure

mutual

theorem obeys_statement (t : Token) (ts : List Token) :
    Obeys text tokens .statement statement (t :: ts) (Grammar.statement t ts) := by
  rw [Grammar.statement]
  refine ⟨_, statement.eq_1, fun here hh => ?_⟩
  have hdecorators : here.MayEnter tokens .decorators (t :: ts) := hh.mayEnter_same (by decide)
  refine (obeys_decorators (t :: ts)).bind hdecorators fun ds ts₁ h₁ _ => ?_
  have hrecover : here.MayEnter tokens .recover ts₁ :=
    hh.mayEnter_of_le (Nat.le_of_lt_succ h₁) (by decide)
  cases ts₁ with
  | nil => exact follows_declaration_nil ds hrecover
  | cons u ts₂ =>
    have hlt : ts₂.length < ts.length + 1 := Nat.lt_of_succ_lt_succ h₁
    exact (follows_declaration ds u ts₂ hrecover).kept fun _ => ⟨rfl, rfl⟩
termination_by 4 * ts.length + 6

theorem follows_declaration (ds : List Decorator) (t : Token) (ts : List Token) {caller : Entry}
    (hc : caller.MayEnter tokens .recover (t :: ts)) :
    Follows text tokens caller (declaration caller ds) (t :: ts)
      (Grammar.declaration ds t ts) := by
  have hbehind (rule : Rule) : caller.MayEnter tokens rule ts := hc.of_lt (Nat.lt_succ_self _)
  have hskipped : Follows text tokens caller _ (t :: ts) _ := follows_skipped t ts hc
  rw [declaration, Grammar.declaration]
  by_cases hsemicolon : t.kind = .mark .semicolon
  · rw [hsemicolon]
    exact (follows_take_cons (by simp [isMark, hsemicolon])).behind .pure
  refine (follows_take_of_not (by simp [isMark, cellOf, hsemicolon])).behind
    (follows_current.behind ?_)
  rw [cellOf]
  cases hk : t.kind with
  | name word =>
    dsimp only
    cases Keyword.ofName? word with
    | none => exact hskipped
    | some keyword =>
      cases keyword <;> simp only [declared.eq_def]
      case importPath => exact follows_behindKeyword_id (follows_importPath ts) t
      case usingName => exact follows_behindKeyword_id (follows_usingName ts (hbehind _)) t
      case scope => exact follows_behindKeyword_id ((obeys_scope ds ts).follows (hbehind _)) t
      case model => exact follows_behindKeyword ((obeys_model ds ts).follows (hbehind _)) t .model
      case enumeration =>
        exact follows_behindKeyword ((obeys_enumeration ds ts).follows (hbehind _)) t .enumeration
      case interface =>
        exact follows_behindKeyword ((obeys_interface ds ts).follows (hbehind _)) t .interface
      case operation =>
        exact follows_behindKeyword (follows_bareOperation ds ts (hbehind _)) t .operation
      case union => exact follows_behindKeyword_id ((obeys_union ds ts).follows (hbehind _)) t
      case typeAlias =>
        have hlater (us : List Token) (hlt : us.length < ts.length) :
            caller.MayEnter tokens .expression us := hc.of_lt (Nat.lt_succ_of_lt hlt)
        exact follows_behindKeyword_id (follows_typeAlias ts hlater) t
      case projection =>
        have hprojection : caller.MayEnter tokens .projection ts := hbehind _
        exact follows_behindKeyword ((obeys_projection ts).follows hprojection) t
          fun _ => .projection
  | mark m =>
    cases m with
    | semicolon => exact absurd hk hsemicolon
    | _ => exact hskipped
  | _ => exact hskipped
termination_by 4 * ts.length + 5

theorem obeys_scope (ds : List Decorator) (ts : List Token) :
    Obeys text tokens .scope (fun caller => scope caller ds) ts (Grammar.scope ds ts) := by
  rw [Grammar.scope]
  refine ⟨_, fun caller => scope.eq_1 caller ds, fun here hh => ?_⟩
  refine (obeys_dottedName ts).bind (hh.mayEnter_same (by decide)) fun n ts₁ h₁ _ => ?_
  refine .ite_mark (fun t us hts ht => ?_) (fun hm => ?_)
  · subst hts
    simp only [mark?_cons_of_eq ht]
    have hlt : us.length < ts.length := Nat.lt_of_succ_lt h₁
    exact (obeys_block us).bind (hh.mayEnter hlt) fun ss ts₂ h₂ _ => .pure
  · simp only [hm]
    exact (follows_expect _ _ ts₁).bind fun _ ts₂ h₂ _ => .pure
termination_by 4 * ts.length + 4

theorem obeys_block (ts : List Token) :
    Obeys text tokens .statements block ts (Grammar.block ts) := by
  refine ⟨_, block_eq, fun here hh => follows_current.behind ?_⟩
  cases ts with
  | nil =>
    rw [Grammar.block]
    exact follows_fail _
  | cons t ts =>
    rw [Grammar.block, cellOf, if_neg (by simp)]
    by_cases hclose : t.kind = .mark .rightBrace
    · rw [if_pos (by simp [isMark, hclose]), if_pos hclose]
      have htake : Follows text tokens here closeBlock (t :: ts) (.ok (.before () ts)) :=
        (follows_take_cons (by simp [isMark, hclose])).behind .pure
      exact htake.behind .pure
    · rw [if_neg (by simp [isMark, hclose]), if_neg hclose]
      have hfirst : here.MayEnter tokens .statement (t :: ts) := hh.mayEnter_same (by decide)
      refine (obeys_statement t ts).bind hfirst fun first ts₁ h₁ _ => ?_
      have _ : ts₁.length < ts.length + 1 := h₁
      exact ((obeys_block ts₁).follows (hh.mayEnter h₁)).map fun _ => ⟨rfl, rfl⟩
termination_by 4 * ts.length + 3

end

/-- What the statements of a program are: read one after another, and nothing is left. -/
theorem statements_cons (t : Token) (ts : List Token) :
    ((Grammar.statements (t :: ts)).map fun ss => Found.before ss ([] : List Token)) = (do
      let first ← Grammar.statement t ts
      let found ← (Grammar.statements first.rest).map fun ss => Found.before ss ([] : List Token)
      .ok (found.map (first.value :: ·))) := by
  rw [Grammar.statements]
  cases Grammar.statement t ts with
  | error fault => rfl
  | ok first =>
    obtain ⟨first, ts₁, h₁⟩ := first
    change Except.map _ (Grammar.statements ts₁ >>= _) = (Grammar.statements ts₁).map _ >>= _
    cases Grammar.statements ts₁ <;> rfl

theorem obeys_statements (ts : List Token) :
    Obeys text tokens .statements (fun caller => statements caller false) ts
      ((Grammar.statements ts).map fun ss => Found.before ss []) := by
  refine ⟨_, fun caller => statements.eq_1 caller false, fun here hh =>
    follows_current.behind ?_⟩
  cases ts with
  | nil =>
    rw [Grammar.statements]
    exact .pure
  | cons t ts =>
    rw [statements_cons]
    dsimp only
    rw [cellOf, if_neg (by simp), Bool.and_false, if_neg Bool.false_ne_true]
    have hfirst : here.MayEnter tokens .statement (t :: ts) := hh.mayEnter_same (by decide)
    refine (obeys_statement t ts).bind hfirst fun first ts₁ h₁ _ => ?_
    have _ : ts₁.length < ts.length + 1 := h₁
    rw [← map_eq_pure_bind]
    exact ((obeys_statements ts₁).follows (hh.mayEnter h₁)).map fun _ => ⟨rfl, rfl⟩
termination_by ts.length

end SchemaContract.Walk
