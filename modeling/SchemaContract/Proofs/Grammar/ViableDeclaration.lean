import SchemaContract.Proofs.Grammar.Viable

/-!
Declarations that fail, each with a completion for what is in front of the fault. Lists are closed
behind the element that is completed, and the declaration behind the list.
-/
namespace SchemaContract.Grammar

variable {P : List Token → Prop} {ts us rest : List Token}

/-- Tokens that some list of elements is written as. -/
def WrittenAsList {α : Type} (element : α → List Token → Prop) (ts : List Token) : Prop :=
  ∃ as, WrittenList element as ts

/-- An element that is completed ends its list. -/
theorem Viable.list {α β : Type} {element : α → List Token → Prop} {x : Except Fault β}
    (h : Viable (fun us => ∃ v, element v us) ts x) : Viable (WrittenAsList element) ts x :=
  h.closed fun _ _ hv => ⟨[closer .rightBrace], _, .last hv rfl⟩

/-- Behind an element the rule for a list reads a separator and goes on as before. -/
theorem viable_others {α β : Type} {element : α → List Token → Prop} {v : α}
    (hv : element v us) {what : Expectation}
    {rule : (ts : List Token) → Except Fault (Found Token ts.length (List α))}
    (hclose : ∀ {t us}, t.kind = .mark .rightBrace → ∃ found, rule (t :: us) = .ok found)
    (hrule : ∀ mid : List Token, mid.length ≤ ts.length →
      Viable (WrittenAsList element) mid (rule mid))
    {k : (found : Found Token (ts.length + 1) Unit) → Found Token found.rest.length (List α) →
      Except Fault β} (hk : ∀ found others, ∃ w, k found others = .ok w) :
    Viable (fun vs => WrittenAsList element (us ++ vs)) ts
      (separator .rightBrace what ts >>= fun found => rule found.rest >>= k found) := by
  refine .bind (viable_separator ⟨[closer .rightBrace], _, .last hv rfl⟩) fun _ mid h hs => ?_
  refine .bind ?_ fun others _ _ _ => ?_
  · have hothers := hrule mid (Nat.le_of_lt_succ h)
    obtain ⟨t, ws, rfl, ⟨ht, rfl⟩ | ⟨_, ht, rfl⟩⟩ := gives_separator_iff.1 ⟨h, hs⟩
    · exact .cons (hothers.part fun as vs hvs => ⟨_, .more hv ht hvs⟩)
    · -- only looked at, so the list ends here
      obtain ⟨found, hf⟩ : ∃ found, rule (t :: ws) = .ok found := hclose ht
      change Viable _ _ (rule (t :: ws))
      rw [hf]
      exact viable_ok
  · obtain ⟨w, hw⟩ := hk _ _
    rw [hw]
    exact viable_ok

theorem viable_case {ds : List Decorator} {mid : List Token} (hds : Gives (decorators ts) ds mid) :
    Viable (fun us => ∃ c, WrittenCase c us) ts (enumerationCase ds mid) := by
  obtain ⟨us, rfl, hw⟩ := before_decorators hds
  refine .behind ?_
  unfold enumerationCase
  rcases mark?_cases .ellipsis mid with hm | ⟨t, vs, rfl, ht⟩
  · rw [hm]
    refine .bind (viable_key ?_) fun k ts₁ h₁ hk => ?_
    · exact ⟨[filler], _, .plain hw (k := .identifier "x") rfl⟩
    obtain ⟨t, rfl, ht⟩ := gives_key_iff.1 ⟨h₁, hk⟩
    rcases mark?_cases .colon ts₁ with hc | ⟨u, vs, rfl, hu⟩
    · simp only [hc]
      exact viable_ok
    · simp only [mark?_cons_of_eq hu]
      have hvalue := (viable_primary vs).part
        (P := fun ws => ∃ c, WrittenCase c (us ++ t :: u :: ws)) fun e ws he =>
          ⟨_, .valued hw ht hu he⟩
      exact .cons (.cons (.bind hvalue fun _ _ _ _ => viable_ok))
  · rw [mark?_cons_of_eq ht]
    have htarget := (viable_primary vs).part
      (P := fun ws => ∃ c, WrittenCase c (us ++ t :: ws)) fun e ws he =>
        ⟨_, .spread hw ht he⟩
    exact .cons (.bind htarget fun _ _ _ _ => viable_ok)

theorem viable_cases (ts : List Token) :
    Viable (WrittenAsList WrittenCase) ts (enumerationCases ts) := by
  rw [enumerationCases]
  rcases mark?_cases .rightBrace ts with hm | ⟨t, us, rfl, ht⟩
  · rw [hm]
    have hdecorators := (viable_decorators ts).closed (P := fun us => ∃ c, WrittenCase c us)
      fun ds us hds => ⟨[filler], _, .plain hds (k := .identifier "x") rfl⟩
    refine .bind hdecorators.list fun ds ts₁ h₁ hd => ?_
    refine .bind (viable_case ⟨h₁, hd⟩).list fun first ts₂ h₂ hx => ?_
    have hlt : ts₂.length < ts.length := Nat.lt_of_lt_of_le h₂ (Nat.le_of_lt_succ h₁)
    obtain ⟨us, hts, hfirst⟩ := before_case ⟨h₁, hd⟩ ⟨h₂, hx⟩
    refine .behind_of_eq hts (viable_others hfirst ?_ ?_ fun _ _ => ⟨_, rfl⟩)
    · intro t us ht
      rw [enumerationCases, mark?_cons_of_eq ht]
      exact ⟨_, rfl⟩
    · intro ts₃ hle
      have hlt₃ : ts₃.length < ts.length := Nat.lt_of_le_of_lt hle hlt
      exact viable_cases ts₃
  · rw [mark?_cons_of_eq ht]
    exact viable_ok
termination_by ts.length

/-- What completes the signature of an operation behind its name. -/
def signatureEnd : List Token := [closer .leftParen, closer .rightParen, closer .colon, filler]

theorem writtenSignature_of_name (ds : List Decorator) {t : Token} {n : String}
    (ht : t.kind = .name n) : WrittenSignature ⟨n, ds, [], .reference "x"⟩ (t :: signatureEnd) :=
  .signature (v := closer .colon) ht rfl (.noMembers rfl) rfl written_filler

/-- What completes an operation may have a name of its own, and then one that suits as well as the
name that is there. -/
theorem viable_operation {ds : List Decorator} {R : String → Prop} (hx : R "x")
    (hts : ∀ t us n, ts = t :: us → t.kind = .name n → R n) :
    Viable (fun us => ∃ o, o.decorators = ds ∧ R o.name ∧ WrittenSignature o us) ts
      (operation ds ts) := by
  refine .bind (viable_name ?_) fun n ts₁ h₁ hn => ?_
  · exact ⟨filler :: signatureEnd, _, rfl, hx, writtenSignature_of_name ds rfl⟩
  obtain ⟨t, rfl, ht⟩ := gives_name_iff.1 ⟨h₁, hn⟩
  have hr : R n := hts t ts₁ n rfl ht
  refine .cons (.bind (viable_mark ?_) fun _ ts₂ h₂ hopen => ?_)
  · exact ⟨signatureEnd, _, rfl, hr, writtenSignature_of_name ds ht⟩
  obtain ⟨u, rfl, hu⟩ := gives_mark_iff.1 ⟨h₂, hopen⟩
  have hresult (ps : List Member) {us : List Token} (hps : Written (.members .parameters ps) us) :
      WrittenSignature ⟨n, ds, ps, .reference "x"⟩ (t :: u :: (us ++ [closer .colon, filler])) :=
    .signature ht hu hps rfl written_filler
  have hparameters := (viable_members .parameters ts₂).closed
    (P := fun us => ∃ o, o.decorators = ds ∧ R o.name ∧ WrittenSignature o (t :: u :: us))
    fun ps us hps => ⟨_, _, rfl, hr, hresult ps hps⟩
  refine .cons (.bind hparameters fun ps ts₃ h₃ hread => ?_)
  obtain ⟨us, rfl, hps⟩ := before_members ⟨h₃, hread⟩
  refine .behind (.bind (viable_mark ⟨_, _, rfl, hr, hresult ps hps⟩) fun _ ts₄ h₄ hcolon => ?_)
  obtain ⟨v, rfl, hv⟩ := gives_mark_iff.1 ⟨h₄, hcolon⟩
  have htype := (viable_expression ts₄).part
    (P := fun vs => ∃ o, o.decorators = ds ∧ R o.name ∧
      WrittenSignature o (t :: u :: (us ++ v :: vs)))
    fun e vs he => ⟨⟨n, ds, ps, e⟩, rfl, hr, .signature ht hu hps hv he⟩
  exact .cons (.bind htype fun _ _ _ _ => viable_ok)

/-- An operation of an interface behind its decorators, with its keyword or without. -/
theorem viable_element {ds : List Decorator} {mid : List Token}
    (hds : Gives (decorators ts) ds mid) :
    Viable (fun us => ∃ o, WrittenOperation o us) ts
      (operation ds (optionalWord "op" mid).rest) := by
  obtain ⟨us, rfl, hw⟩ := before_decorators hds
  by_cases hop : ∃ t vs, mid = t :: vs ∧ t.kind = .name "op"
  · obtain ⟨t, vs, rfl, ht⟩ := hop
    rw [(optionalWord_of_eq ht).2]
    have hoperation : Viable _ vs (operation ds vs) :=
      viable_operation (R := fun _ => True) trivial fun _ _ _ _ _ => trivial
    exact .behind (.cons (hoperation.part fun o vs h => ⟨o, .long (h.1 ▸ hw) ht h.2.2⟩))
  · have hmid : (optionalWord "op" mid).rest = mid := by
      cases mid with
      | nil => rfl
      | cons t vs => exact (optionalWord_of_ne fun ht => hop ⟨t, vs, rfl, ht⟩).2
    rw [hmid]
    have hoperation : Viable _ mid (operation ds mid) :=
      viable_operation (R := fun n => n ≠ "op") (by decide) fun t vs n hts ht hn =>
        hop ⟨t, vs, hts, hn ▸ ht⟩
    exact .behind (hoperation.part fun o vs h => ⟨o, .short (h.1 ▸ hw) h.2.1 h.2.2⟩)

theorem viable_operations (ts : List Token) :
    Viable (WrittenAsList WrittenOperation) ts (interfaceOperations ts) := by
  rw [interfaceOperations]
  rcases mark?_cases .rightBrace ts with hm | ⟨t, us, rfl, ht⟩
  · rw [hm]
    have hdecorators := (viable_decorators ts).closed (P := fun us => ∃ o, WrittenOperation o us)
      fun ds us hds => ⟨filler :: signatureEnd, ⟨"x", ds, [], .reference "x"⟩,
        .short hds (show "x" ≠ "op" by decide) (writtenSignature_of_name ds rfl)⟩
    refine .bind hdecorators.list fun ds ts₁ h₁ hd => ?_
    refine .bind (viable_element ⟨h₁, hd⟩).list fun first ts₂ h₂ hx => ?_
    have hle : (optionalWord "op" ts₁).rest.length ≤ ts₁.length :=
      Nat.le_of_lt_succ (optionalWord "op" ts₁).within
    have hlt : ts₂.length < ts.length :=
      Nat.lt_of_lt_of_le h₂ (Nat.le_trans hle (Nat.le_of_lt_succ h₁))
    obtain ⟨us, hts, hfirst⟩ := before_operation ⟨h₁, hd⟩ ⟨h₂, hx⟩
    refine .behind_of_eq hts (viable_others hfirst ?_ ?_ fun _ _ => ⟨_, rfl⟩)
    · intro t us ht
      rw [interfaceOperations, mark?_cons_of_eq ht]
      exact ⟨_, rfl⟩
    · intro ts₃ hle
      have hlt₃ : ts₃.length < ts.length := Nat.lt_of_le_of_lt hle hlt
      exact viable_operations ts₃
  · rw [mark?_cons_of_eq ht]
    exact viable_ok
termination_by ts.length

theorem viable_variants (ts : List Token) :
    Viable (WrittenAsList WrittenVariant) ts (unionVariants ts) := by
  rw [unionVariants]
  rcases mark?_cases .rightBrace ts with hm | ⟨t, us, rfl, ht⟩
  · rw [hm]
    have hfiller {us : List Token} {ds : List Decorator} (hds : Written (.decorators ds) us) :
        WrittenVariant ⟨.identifier "x", .reference "x"⟩
          (us ++ [filler, closer .colon, filler]) :=
      .variant hds rfl rfl written_filler
    have hdecorators := (viable_decorators ts).closed (P := fun us => ∃ v, WrittenVariant v us)
      fun ds us hds => ⟨_, _, hfiller hds⟩
    refine .bind hdecorators.list fun ds ts₁ h₁ hd => ?_
    obtain ⟨us, hts, hds⟩ := before_decorators ⟨h₁, hd⟩
    have hkey : Viable (fun us => ∃ v, WrittenVariant v us) ts (key .variantName ts₁) :=
      .behind_of_eq hts (viable_key ⟨_, _, hfiller hds⟩)
    refine .bind hkey.list fun k ts₂ h₂ hk => ?_
    obtain ⟨t, rfl, ht⟩ := gives_key_iff.1 ⟨h₂, hk⟩
    have hcolon : Viable (fun us => ∃ v, WrittenVariant v us) ts (mark .colon .variantColon ts₂) :=
      .behind_of_eq hts (.cons (viable_mark
        ⟨[closer .colon, filler], _, .variant hds ht rfl written_filler⟩))
    refine .bind hcolon.list fun _ ts₃ h₃ hc => ?_
    obtain ⟨u, rfl, hu⟩ := gives_mark_iff.1 ⟨h₃, hc⟩
    have htype : Viable (fun us => ∃ v, WrittenVariant v us) ts (expression ts₃) :=
      .behind_of_eq hts (.cons (.cons ((viable_expression ts₃).part fun e vs he =>
        ⟨_, .variant hds ht hu he⟩)))
    refine .bind htype.list fun e ts₄ h₄ hx => ?_
    obtain ⟨vs, rfl, he⟩ := before_expression ⟨h₄, hx⟩
    have hts₄ : ts = (us ++ t :: u :: vs) ++ ts₄ := by simp [hts]
    have hlt : ts₄.length < ts.length := by
      rw [hts₄, List.length_append, List.length_append, List.length_cons]
      omega
    refine .behind_of_eq hts₄ (viable_others (.variant hds ht hu he) ?_ ?_ fun _ _ => ⟨_, rfl⟩)
    · intro t us ht
      rw [unionVariants, mark?_cons_of_eq ht]
      exact ⟨_, rfl⟩
    · intro ts₅ hle
      have hlt₅ : ts₅.length < ts.length := Nat.lt_of_le_of_lt hle hlt
      exact viable_variants ts₅
  · rw [mark?_cons_of_eq ht]
    exact viable_ok
termination_by ts.length

/-- What some declaration is written as behind its keyword. -/
def Declares (ds : List Decorator) (t : Token) (ts : List Token) : Prop :=
  ∃ s, WrittenDeclaration ds s (t :: ts)

variable {ds : List Decorator} {t : Token}

theorem viable_importPath (ht : t.kind = .name "import") (ts : List Token) :
    Viable (Declares ds t) ts (importPath ts) := by
  refine .bind (viable_quoted ?_) fun path ts₁ h₁ hp => ?_
  · exact ⟨[⟨.text "x", 0⟩, closer .semicolon], _, .importPath ht rfl rfl⟩
  obtain ⟨u, rfl, hu⟩ := gives_quoted_iff.1 ⟨h₁, hp⟩
  refine .cons (.bind (viable_mark ?_) fun _ _ _ _ => viable_ok)
  exact ⟨[closer .semicolon], _, .importPath ht hu rfl⟩

theorem viable_usingName (ht : t.kind = .name "using") (ts : List Token) :
    Viable (Declares ds t) ts (usingName ts) := by
  have hname := (viable_dottedName ts).closed (P := Declares ds t) fun n us hn =>
    ⟨[closer .semicolon], _, .usingName ht hn rfl⟩
  refine .bind hname fun n ts₁ h₁ hx => ?_
  obtain ⟨us, rfl, hn⟩ := before_dottedName ⟨h₁, hx⟩
  refine .behind (.bind (viable_mark ?_) fun _ _ _ _ => viable_ok)
  exact ⟨[closer .semicolon], _, .usingName ht hn rfl⟩

theorem viable_modelTarget (ts : List Token) :
    Viable (fun us => ∃ target? ms, WrittenModel target? ms us) ts (modelTarget ts) := by
  unfold modelTarget
  cases ts with
  | nil => exact viable_ok
  | cons v us =>
    by_cases hv : v.kind = .name "is"
    · rw [optionalWord, if_pos hv]
      have htarget := (viable_expression us).closed
        (P := fun vs => ∃ target? ms, WrittenModel target? ms (v :: vs)) fun e vs he =>
          ⟨[closer .semicolon], _, _, .target hv he rfl⟩
      exact .cons (.bind htarget fun _ _ _ _ => viable_ok)
    · rw [optionalWord, if_neg hv]
      exact viable_ok

theorem viable_modelBody {target? : Option Expression} {mid : List Token}
    (htarget : Gives (modelTarget ts) target? mid) :
    Viable (fun us => ∃ target? ms, WrittenModel target? ms us) ts (modelBody target? mid) := by
  unfold modelBody
  rcases mark?_cases .leftBrace mid with hm | ⟨w, vs, rfl, hw⟩
  · rw [hm]
    obtain ⟨v, us, e, rfl, hv, he, rfl⟩ | ⟨rfl, rfl⟩ := before_modelTarget htarget
    · refine .cons (.behind (.bind (viable_mark ?_) fun _ _ _ _ => viable_ok))
      exact ⟨[closer .semicolon], _, _, .target hv he rfl⟩
    · exact viable_error ⟨[closer .leftBrace, closer .rightBrace], _, _, .body rfl (.noMembers rfl)⟩
  · rw [mark?_cons_of_eq hw]
    obtain ⟨v, us, e, rfl, hv, he, rfl⟩ | ⟨rfl, rfl⟩ := before_modelTarget htarget
    · have hbody := (viable_members .body vs).part
        (P := fun ws => ∃ target? ms, WrittenModel target? ms (v :: (us ++ w :: ws)))
        fun ms ws hms => ⟨_, _, .both hv he hw hms⟩
      exact .cons (.behind (.cons (.bind hbody fun _ _ _ _ => viable_ok)))
    · have hbody := (viable_members .body vs).part
        (P := fun ws => ∃ target? ms, WrittenModel target? ms (w :: ws)) fun ms ws hms =>
          ⟨_, _, .body hw hms⟩
      exact .cons (.bind hbody fun _ _ _ _ => viable_ok)

theorem viable_model (ht : t.kind = .name "model") (ts : List Token) :
    Viable (Declares ds t) ts (model ds ts) := by
  have hnone : WrittenModel none [] [closer .leftBrace, closer .rightBrace] :=
    .body rfl (.noMembers rfl)
  refine .bind (viable_name ?_) fun n ts₁ h₁ hn => ?_
  · exact ⟨_, _, .model (u := filler) ht rfl hnone⟩
  obtain ⟨u, rfl, hu⟩ := gives_name_iff.1 ⟨h₁, hn⟩
  have hrest {x : List Token} (h : ∃ target? ms, WrittenModel target? ms x) :
      Declares ds t (u :: x) := by
    obtain ⟨target?, ms, hw⟩ := h
    exact ⟨_, .model ht hu hw⟩
  refine .cons ?_
  dsimp only
  split
  · exact viable_error ⟨_, hrest ⟨_, _, hnone⟩⟩
  · refine .bind ((viable_modelTarget ts₁).imp fun _ => hrest) fun target? ts₂ h₂ hx => ?_
    refine .bind ((viable_modelBody ⟨h₂, hx⟩).imp fun _ => hrest) fun _ _ _ _ => viable_ok

/-- A name and a list in braces. -/
theorem viable_braced {α β : Type} {element : α → List Token → Prop} {what what' : Expectation}
    {rule : (ts : List Token) → Except Fault (Found Token ts.length (List α))}
    {f : String → List α → β} (hrule : ∀ ts, Viable (WrittenAsList element) ts (rule ts))
    (hP : ∀ {u v n as us}, u.kind = .name n → v.kind = .mark .leftBrace →
      WrittenList element as us → P (u :: v :: us)) :
    Viable P ts (do
      let ⟨n, ts₁, h₁⟩ ← name what ts
      let ⟨_, ts₂, h₂⟩ := (← mark .leftBrace what' ts₁).after h₁
      let ⟨as, ts₃, h₃⟩ := (← rule ts₂).after h₂
      (.ok ⟨f n as, ts₃, h₃⟩ : Except Fault (Found Token ts.length β))) := by
  have hempty : WrittenList element [] [closer .rightBrace] := .none rfl
  refine .bind (viable_name ?_) fun n ts₁ h₁ hn => ?_
  · exact ⟨[filler, closer .leftBrace, closer .rightBrace], hP rfl rfl hempty⟩
  obtain ⟨u, rfl, hu⟩ := gives_name_iff.1 ⟨h₁, hn⟩
  refine .cons (.bind (viable_mark ?_) fun _ ts₂ h₂ hx => ?_)
  · exact ⟨[closer .leftBrace, closer .rightBrace], hP hu rfl hempty⟩
  obtain ⟨v, rfl, hv⟩ := gives_mark_iff.1 ⟨h₂, hx⟩
  have hlist := (hrule ts₂).part (P := fun us => P (u :: v :: us)) fun _ _ has => hP hu hv has
  exact .cons (.bind hlist fun _ _ _ _ => viable_ok)

theorem viable_enumeration (ht : t.kind = .name "enum") (ts : List Token) :
    Viable (Declares ds t) ts (enumeration ds ts) :=
  viable_braced (f := fun n cs => (⟨n, ds, cs⟩ : Enumeration)) (P := Declares ds t) viable_cases
    fun hu hv hcs => ⟨_, .enumeration ht hu hv hcs⟩

theorem viable_interface (ht : t.kind = .name "interface") (ts : List Token) :
    Viable (Declares ds t) ts (interface ds ts) :=
  viable_braced (f := fun n os => (⟨n, ds, os⟩ : Interface)) (P := Declares ds t) viable_operations
    fun hu hv hos => ⟨_, .interface ht hu hv hos⟩

theorem viable_union (ht : t.kind = .name "union") (ts : List Token) :
    Viable (Declares ds t) ts (union ds ts) :=
  viable_braced (f := fun n vs => Statement.union n ds vs) (P := Declares ds t) viable_variants
    fun hu hv hvs => ⟨_, .union ht hu hv hvs⟩

theorem viable_bareOperation (ht : t.kind = .name "op") (ts : List Token) :
    Viable (Declares ds t) ts (bareOperation ds ts) := by
  have hoperation : Viable _ ts (operation ds ts) :=
    viable_operation (R := fun _ => True) trivial fun _ _ _ _ _ => trivial
  have hclosed := hoperation.closed (P := Declares ds t) fun o us h =>
    ⟨[closer .semicolon], _, .operation ht h.1 h.2.2 rfl⟩
  refine .bind hclosed fun o ts₁ h₁ hx => ?_
  obtain ⟨⟨us, rfl, hw⟩, ho⟩ := before_signature ⟨h₁, hx⟩
  refine .behind (.bind (viable_mark ?_) fun _ _ _ _ => viable_ok)
  exact ⟨[closer .semicolon], _, .operation ht ho hw rfl⟩

theorem viable_typeAlias (ht : t.kind = .name "alias") (ts : List Token) :
    Viable (Declares ds t) ts (typeAlias ts) := by
  refine .bind (viable_name ?_) fun n ts₁ h₁ hn => ?_
  · exact ⟨[filler, closer .equals, filler, closer .semicolon], _,
      .typeAlias ht rfl rfl written_filler (w := closer .semicolon) rfl⟩
  obtain ⟨u, rfl, hu⟩ := gives_name_iff.1 ⟨h₁, hn⟩
  refine .cons (.bind (viable_mark ?_) fun _ ts₂ h₂ hx => ?_)
  · exact ⟨[closer .equals, filler, closer .semicolon], _,
      .typeAlias ht hu rfl written_filler (w := closer .semicolon) rfl⟩
  obtain ⟨v, rfl, hv⟩ := gives_mark_iff.1 ⟨h₂, hx⟩
  have htype := (viable_expression ts₂).closed (P := fun us => Declares ds t (u :: v :: us))
    fun e us he => ⟨[closer .semicolon], _, .typeAlias ht hu hv he rfl⟩
  refine .cons (.bind htype fun e ts₃ h₃ hx => ?_)
  obtain ⟨us, rfl, he⟩ := before_expression ⟨h₃, hx⟩
  refine .behind (.bind (viable_mark ?_) fun _ _ _ _ => viable_ok)
  exact ⟨[closer .semicolon], _, .typeAlias ht hu hv he rfl⟩

end SchemaContract.Grammar
