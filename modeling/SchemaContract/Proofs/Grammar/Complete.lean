import SchemaContract.Proofs.Grammar.Written

/-!
Completeness of the rules of expressions: whatever a phrase is written as is derived, provided that
what follows does not go on with the phrase. Which marks would go on depends on the rule.
-/
namespace SchemaContract.Grammar

/-- The marks that go on with a phrase. -/
def Phrase.barred : Phrase → List Mark
  | primary _ => [.dot, .less]
  | operand _ => [.dot, .less, .leftBracket]
  | intersection _ | intersectionOptions _ => [.dot, .less, .leftBracket, .ampersand]
  | expression _ | unionOptions _ => [.dot, .less, .leftBracket, .ampersand, .pipe]
  | member .. | default _ => [.dot, .less, .leftBracket, .ampersand, .pipe, .equals]
  | decorators _ => [.dot, .leftParen, .atSign]
  | arguments _ => [.leftParen]
  | listing .. | items .. | members .. => []

/-- No mark that goes on with the phrase follows. -/
def Phrase.Stops (φ : Phrase) (rest : List Token) : Prop :=
  ∀ m ∈ φ.barred, mark? m rest = none

theorem Phrase.stops_cons {φ : Phrase} {t : Token} (rest : List Token)
    (h : ∀ m ∈ φ.barred, t.kind ≠ .mark m) : φ.Stops (t :: rest) :=
  fun m hm => mark?_cons_of_ne (h m hm)

theorem Phrase.stops_cons_mark {φ : Phrase} {t : Token} {m : Mark} (rest : List Token)
    (ht : t.kind = .mark m) (hm : m ∉ φ.barred) : φ.Stops (t :: rest) := by
  apply φ.stops_cons rest
  intro m' hm' he
  rw [ht] at he
  cases he
  exact hm hm'

theorem Phrase.stops_cons_separator {φ : Phrase} {t : Token} (rest : List Token)
    (ht : t.IsSeparator) (hs : .semicolon ∉ φ.barred) (hc : .comma ∉ φ.barred) :
    φ.Stops (t :: rest) := by
  rcases ht with ht | ht
  · exact Phrase.stops_cons_mark rest ht hs
  · exact Phrase.stops_cons_mark rest ht hc

theorem Phrase.Stops.mono {φ ψ : Phrase} {rest : List Token} (h : φ.Stops rest)
    (hs : ψ.barred ⊆ φ.barred) : ψ.Stops rest :=
  fun m hm => h m (hs hm)

theorem WrittenName.gives {n : String} {ts : List Token} (h : WrittenName n ts) {n' : String}
    {rest rest' : List Token} (hr : Gives (dottedRest n rest) n' rest') :
    Gives (dottedName (ts ++ rest)) n' rest' := by
  induction h generalizing rest with
  | single ht => exact gives_dottedName_iff.2 ⟨_, _, _, rfl, ht, hr⟩
  | dotted _ ht hu ih =>
    rw [List.append_assoc]
    exact ih ((gives_dottedRest_cons ht).2 ⟨_, _, _, rfl, hu, hr⟩)

/-- A dotted name is read where no dot follows. -/
theorem WrittenName.gives_dottedName {n : String} {ts rest : List Token} (h : WrittenName n ts)
    (hd : mark? .dot rest = none) : Gives (dottedName (ts ++ rest)) n rest :=
  h.gives ((gives_dottedRest_of_none hd).2 ⟨rfl, rfl⟩)

theorem WrittenPath.gives {e : Expression} {ts : List Token} (h : WrittenPath e ts)
    {e' : Expression} {rest rest' : List Token} (hr : Gives (memberChain e rest) e' rest')
    (hl : mark? .less rest' = none) : Gives (primary (ts ++ rest)) e' rest' := by
  induction h generalizing rest with
  | reference ht hk =>
    refine (gives_primary_name_iff ht).2 ?_
    rw [gives_named_of_none (keywordType?_eq_none_iff.2 hk)]
    exact gives_reference_iff.2 ⟨hr, hl⟩
  | member _ ht hu ih =>
    rw [List.append_assoc]
    exact ih ((gives_memberChain_cons ht).2 ⟨_, _, _, rfl, hu, hr⟩)

/-- The marks that a phrase may begin with, unless it may be empty. -/
def Phrase.openings? : Phrase → Option (List Mark)
  | intersection _ | operand _ | primary _ => some [.leftBracket, .leftBrace, .leftParen]
  | expression _ | items .. => some [.leftBracket, .leftBrace, .leftParen, .pipe]
  | member .. => some [.ellipsis]
  | _ => none

/-- The tokens begin with one of some marks, or with no mark. -/
def BeginsWith (marks : List Mark) (ts : List Token) : Prop :=
  ∃ t us, ts = t :: us ∧ ∀ m, t.kind = .mark m → m ∈ marks

theorem BeginsWith.append {marks : List Mark} {ts : List Token} (h : BeginsWith marks ts)
    (us : List Token) : BeginsWith marks (ts ++ us) := by
  obtain ⟨t, ts, rfl, ht⟩ := h
  exact ⟨t, ts ++ us, rfl, ht⟩

theorem BeginsWith.mono {marks marks' : List Mark} {ts : List Token} (h : BeginsWith marks ts)
    (hs : marks ⊆ marks') : BeginsWith marks' ts := by
  obtain ⟨t, ts, rfl, ht⟩ := h
  exact ⟨t, ts, rfl, fun m hm => hs (ht m hm)⟩

theorem BeginsWith.mark?_eq_none {marks : List Mark} {ts : List Token} (h : BeginsWith marks ts)
    {m : Mark} (hm : m ∉ marks) : mark? m ts = none := by
  obtain ⟨t, ts, rfl, ht⟩ := h
  exact mark?_cons_of_ne fun he => hm (ht m he)

theorem BeginsWith.stops {marks : List Mark} {ts : List Token} (h : BeginsWith marks ts)
    {φ : Phrase} (hm : ∀ m ∈ φ.barred, m ∉ marks) : φ.Stops ts :=
  fun m hb => h.mark?_eq_none (hm m hb)

theorem beginsWith_cons_mark {marks : List Mark} {t : Token} {m : Mark} (ts : List Token)
    (ht : t.kind = .mark m) (hm : m ∈ marks) : BeginsWith marks (t :: ts) := by
  refine ⟨t, ts, rfl, ?_⟩
  intro m' he
  rw [ht] at he
  cases he
  exact hm

theorem beginsWith_cons_of_ne {marks : List Mark} {t : Token} (ts : List Token)
    (ht : ∀ m, t.kind ≠ .mark m) : BeginsWith marks (t :: ts) :=
  ⟨t, ts, rfl, fun m he => absurd he (ht m)⟩

theorem WrittenPath.beginsWith {e : Expression} {ts : List Token} (h : WrittenPath e ts)
    (marks : List Mark) : BeginsWith marks ts := by
  induction h with
  | reference ht _ => exact beginsWith_cons_of_ne _ (by simp [ht])
  | member _ _ _ ih => exact ih.append _

theorem Written.beginsWith {φ : Phrase} {ts : List Token} (h : Written φ ts) {marks : List Mark}
    (hm : φ.openings? = some marks) : BeginsWith marks ts := by
  induction h generalizing marks with
  | expression hlead _ _ ih _ =>
    cases hm
    cases hlead with
    | absent => exact ((ih rfl).mono (by decide)).append _
    | present ht => exact beginsWith_cons_mark _ ht (by decide)
  | intersection _ _ ih _ => exact (ih hm).append _
  | operand _ ih => exact ih hm
  | array _ _ _ ih => exact (ih hm).append _
  | number ht => exact beginsWith_cons_of_ne _ (by simp [ht])
  | text ht => exact beginsWith_cons_of_ne _ (by simp [ht])
  | truth ht => exact beginsWith_cons_of_ne _ (by simp [ht])
  | keyword ht _ => exact beginsWith_cons_of_ne _ (by simp [ht])
  | path hp => exact hp.beginsWith marks
  | tuple ht _ _ =>
    cases hm
    exact beginsWith_cons_mark _ ht (by decide)
  | model ht _ _ =>
    cases hm
    exact beginsWith_cons_mark _ ht (by decide)
  | group ht _ _ _ =>
    cases hm
    exact beginsWith_cons_mark _ ht (by decide)
  | lastItem _ _ ih => exact (ih hm).append _
  | item _ _ _ ih _ => exact (ih hm).append _
  | spread ht _ _ =>
    cases hm
    exact beginsWith_cons_mark _ ht (by decide)
  | @property t _ _ _ _ _ k _ _ _ ht _ _ _ _ _ _ =>
    apply beginsWith_cons_of_ne
    rw [ht]
    exact k.token_ne_mark
  | _ => cases hm

/-- The mark that a phrase begins with unless it is empty. -/
def Phrase.option? : Phrase → Option Mark
  | unionOptions _ => some .pipe
  | intersectionOptions _ => some .ampersand
  | default _ => some .equals
  | decorators _ => some .atSign
  | arguments _ => some .leftParen
  | _ => none

theorem Written.eq_nil_or_option {φ : Phrase} {ts : List Token} (h : Written φ ts) {m : Mark}
    (hm : φ.option? = some m) : ts = [] ∨ ∃ t us, ts = t :: us ∧ t.kind = .mark m := by
  cases h <;> first
    | cases hm
      exact .inl rfl
    | cases hm
      exact .inr ⟨_, _, rfl, ‹_›⟩
    | cases hm

theorem Written.mark?_append {φ : Phrase} {ts rest : List Token} (h : Written φ ts) {m m' : Mark}
    (hm : φ.option? = some m) (hne : m ≠ m') (hr : mark? m' rest = none) :
    mark? m' (ts ++ rest) = none := by
  rcases h.eq_nil_or_option hm with rfl | ⟨t, us, rfl, ht⟩
  · exact hr
  · apply mark?_cons_of_ne
    rw [ht]
    intro he
    cases he
    exact hne rfl

/-- What ends a phrase still ends it when an option stands between that does not go on with it. -/
theorem Written.stops_append {φ ψ : Phrase} {ts rest : List Token} (h : Written φ ts) {m : Mark}
    (hm : φ.option? = some m) (hb : m ∉ ψ.barred) (hr : ψ.Stops rest) : ψ.Stops (ts ++ rest) := by
  intro m' hm'
  apply h.mark?_append hm _ (hr m' hm')
  rintro rfl
  exact hb hm'

theorem arrayBrackets_of_none {e : Expression} {ts : List Token}
    (h : mark? .leftBracket ts = none) :
    (arrayBrackets e ts).value = e ∧ (arrayBrackets e ts).rest = ts := by
  match ts with
  | [] => exact ⟨rfl, rfl⟩
  | [t] => exact ⟨rfl, rfl⟩
  | t :: u :: ts =>
    have ht := mark?_cons_eq_none_iff.1 h
    rw [arrayBrackets, if_neg fun hb => ht hb.1]
    exact ⟨rfl, rfl⟩

theorem arrayBrackets_cons {e : Expression} {t u : Token} (ts : List Token)
    (ht : t.kind = .mark .leftBracket) (hu : u.kind = .mark .rightBracket) :
    (arrayBrackets e (t :: u :: ts)).value = (arrayBrackets (.array e) ts).value ∧
      (arrayBrackets e (t :: u :: ts)).rest = (arrayBrackets (.array e) ts).rest := by
  rw [arrayBrackets, if_pos ⟨ht, hu⟩]
  exact ⟨rfl, rfl⟩

/-- The phrase is derived from what it is written as. Behind an operand more brackets may stand, for
these are written from the left but read after their element. -/
def Phrase.ReadFrom (ts : List Token) : Phrase → Prop
  | operand e => ∀ rest, (Phrase.primary e).Stops rest →
      Derives (.operand (arrayBrackets e rest).value) (ts ++ rest) (arrayBrackets e rest).rest
  | φ => ∀ rest, φ.Stops rest → Derives φ (ts ++ rest) rest

theorem Phrase.ReadFrom.operand_derives {e : Expression} {ts rest : List Token}
    (h : (Phrase.operand e).ReadFrom ts) (hr : (Phrase.operand e).Stops rest) :
    Derives (.operand e) (ts ++ rest) rest := by
  have hd := h rest (hr.mono (by simp [barred]))
  obtain ⟨hv, hrest⟩ := arrayBrackets_of_none (e := e) (hr .leftBracket (by simp [barred]))
  rwa [hv, hrest] at hd

theorem optionalMark_written {m : Mark} {b : Bool} {ts rest : List Token}
    (h : WrittenMark m b ts) (hr : mark? m rest = none) :
    (optionalMark m (ts ++ rest)).value = b ∧ (optionalMark m (ts ++ rest)).rest = rest := by
  cases h with
  | absent => exact optionalMark_of_none hr
  | present ht => exact optionalMark_of_eq ht

theorem gives_separator {t : Token} (h : t.IsSeparator) (close : Mark) (what : Expectation)
    (ts : List Token) : Gives (separator close what (t :: ts)) () ts :=
  gives_separator_iff.2 ⟨t, ts, rfl, .inl ⟨h, rfl⟩⟩

theorem gives_separator_close {t : Token} {close : Mark} (h : t.kind = .mark close)
    (hc : close ≠ .semicolon ∧ close ≠ .comma) (what : Expectation) (ts : List Token) :
    Gives (separator close what (t :: ts)) () (t :: ts) := by
  refine gives_separator_iff.2 ⟨t, ts, rfl, .inr ⟨?_, h, rfl⟩⟩
  rintro (he | he)
  · rw [h] at he
    cases he
    exact hc.1 rfl
  · rw [h] at he
    cases he
    exact hc.2 rfl

theorem MemberList.close_ne (place : MemberList) :
    place.close ≠ .semicolon ∧ place.close ≠ .comma := by
  cases place <;> decide

theorem MemberList.mark?_close_eq_none {place : MemberList} {ds : List Decorator} {m : Member}
    {ts us : List Token} (hd : Written (.decorators ds) ts) (hm : Written (.member ds m) us)
    (rest : List Token) : mark? place.close (ts ++ (us ++ rest)) = none := by
  rcases hd.eq_nil_or_option rfl with rfl | ⟨t, us, rfl, ht⟩
  · have hb := (hm.beginsWith rfl).append rest
    exact hb.mark?_eq_none (by cases place <;> decide)
  · apply mark?_cons_of_ne
    rw [ht]
    cases place <;> decide

/-- What phrases are written as is read. The induction is on how they are written. -/
theorem Written.readFrom {φ : Phrase} {ts : List Token} (h : Written φ ts) : φ.ReadFrom ts := by
  induction h with
  | @expression lead ts us bar first others hlead hfirst hothers ih₁ ih₂ =>
    intro rest hr
    have hp : mark? .pipe (ts ++ (us ++ rest)) = none :=
      ((hfirst.beginsWith rfl).append _).mark?_eq_none (by decide)
    have hd : Derives (.intersection first) (ts ++ (us ++ rest)) (us ++ rest) :=
      ih₁ _ (hothers.stops_append rfl (by simp [Phrase.barred])
        (hr.mono (by simp [Phrase.barred])))
    rw [List.append_assoc, List.append_assoc]
    refine .expression ?_ (ih₂ rest hr)
    rwa [(optionalMark_written hlead hp).2]
  | noUnionOption =>
    intro rest hr
    exact .noUnionOption (hr .pipe (by simp [Phrase.barred]))
  | @unionOption t ts us e es ht _ hothers ih₁ ih₂ =>
    intro rest hr
    rw [List.cons_append, List.append_assoc]
    refine .unionOption ht (ih₁ _ ?_) (ih₂ rest hr)
    exact hothers.stops_append rfl (by simp [Phrase.barred]) (hr.mono (by simp [Phrase.barred]))
  | @intersection ts us first others _ hothers ih₁ ih₂ =>
    intro rest hr
    rw [List.append_assoc]
    refine .intersection (ih₁.operand_derives ?_) (ih₂ rest hr)
    exact hothers.stops_append rfl (by simp [Phrase.barred]) (hr.mono (by simp [Phrase.barred]))
  | noIntersectionOption =>
    intro rest hr
    exact .noIntersectionOption (hr .ampersand (by simp [Phrase.barred]))
  | @intersectionOption t ts us e es ht _ hothers ih₁ ih₂ =>
    intro rest hr
    rw [List.cons_append, List.append_assoc]
    refine .intersectionOption ht (ih₁.operand_derives ?_) (ih₂ rest hr)
    exact hothers.stops_append rfl (by simp [Phrase.barred]) (hr.mono (by simp [Phrase.barred]))
  | operand _ ih =>
    intro rest hr
    exact .operand (ih rest hr)
  | array _ ht hu ih =>
    intro rest hr
    obtain ⟨hv, hrest⟩ := arrayBrackets_cons rest ht hu
    rw [List.append_assoc, ← hv, ← hrest]
    exact ih _ (Phrase.stops_cons_mark _ ht (by simp [Phrase.barred]))
  | number ht => exact fun _ _ => .number ht
  | text ht => exact fun _ _ => .text ht
  | truth ht => exact fun _ _ => .truth ht
  | keyword ht hk => exact fun _ _ => .named ht ((gives_named_of_some hk).2 ⟨rfl, rfl⟩)
  | path hp =>
    intro rest hr
    have hd := hr .dot (by simp [Phrase.barred])
    have hl := hr .less (by simp [Phrase.barred])
    have hg := hp.gives ((gives_memberChain_of_none hd).2 ⟨rfl, rfl⟩) hl
    exact Phrase.Given.derives (φ := .primary _) hg
  | tuple ht _ ih => exact fun rest _ => .tuple ht (ih rest (by simp [Phrase.Stops, Phrase.barred]))
  | model ht _ ih => exact fun rest _ => .model ht (ih rest (by simp [Phrase.Stops, Phrase.barred]))
  | group ht _ hu ih =>
    intro rest _
    rw [List.cons_append, List.append_assoc]
    exact .group ht (ih _ (Phrase.stops_cons_mark _ hu (by simp [Phrase.barred]))) hu
  | noListing ht => exact fun _ _ => .noListing ht
  | @listing _ place _ hes ih =>
    intro rest hr
    have hb := (hes.beginsWith rfl).append rest
    exact .listing (hb.mark?_eq_none (by cases place <;> decide)) (ih rest hr)
  | @lastItem _ _ place _ _ ht ih =>
    intro rest _
    rw [List.append_assoc]
    refine .lastItem (ih _ (Phrase.stops_cons_mark _ ht ?_)) (mark?_cons_of_ne ?_) ht
    · cases place <;> simp [Phrase.barred, ItemList.close]
    · rw [ht]
      cases place <;> decide
  | item _ ht _ ih₁ ih₂ =>
    intro rest hr
    rw [List.append_assoc]
    exact .item (ih₁ _ (Phrase.stops_cons_mark _ ht (by simp [Phrase.barred]))) ht (ih₂ rest hr)
  | noMembers ht => exact fun _ _ => .noMembers ht
  | @lastMember t ts us place ds m hds hm ht ih₁ ih₂ =>
    intro rest _
    rw [List.append_assoc, List.append_assoc]
    refine .members (MemberList.mark?_close_eq_none hds hm _) (ih₁ _ ?_) (ih₂ _ ?_)
      (gives_separator_close ht place.close_ne _ _) (.noMembers ht)
    · exact ((hm.beginsWith rfl).append _).stops (by simp [Phrase.barred])
    · exact Phrase.stops_cons_mark _ ht (by cases place <;> simp [Phrase.barred, MemberList.close])
  | @members t ts us vs place ds m ms hds hm ht _ ih₁ ih₂ ih₃ =>
    intro rest hr
    rw [List.append_assoc, List.append_assoc]
    refine .members (MemberList.mark?_close_eq_none hds hm _) (ih₁ _ ?_) (ih₂ _ ?_)
      (gives_separator ht _ _ _) (ih₃ rest hr)
    · exact ((hm.beginsWith rfl).append _).stops (by simp [Phrase.barred])
    · exact Phrase.stops_cons_separator _ ht (by simp [Phrase.barred]) (by simp [Phrase.barred])
  | spread ht _ ih =>
    intro rest hr
    exact .spread ht (ih rest (hr.mono (by simp [Phrase.barred])))
  | @property t u mark ts us ds k type optional default? ht hmark hu _ hdefault ih₁ ih₂ =>
    intro rest hr
    rw [List.cons_append, List.append_assoc, List.cons_append, List.append_assoc]
    have hq : mark? .question (u :: (ts ++ (us ++ rest))) = none :=
      mark?_cons_of_ne (by simp [hu])
    obtain ⟨hv, hrest⟩ := optionalMark_written hmark hq
    rw [← hv]
    refine .property ht hrest hu (ih₁ _ ?_) (ih₂ rest hr)
    exact hdefault.stops_append rfl (by simp [Phrase.barred]) (hr.mono (by simp [Phrase.barred]))
  | noDefault =>
    intro rest hr
    exact .noDefault (hr .equals (by simp [Phrase.barred]))
  | default ht _ ih =>
    intro rest hr
    exact .default ht (ih rest (hr.mono (by simp [Phrase.barred])))
  | noDecorator =>
    intro rest hr
    exact .noDecorator (hr .atSign (by simp [Phrase.barred]))
  | @decorator t ns ts us target es ds ht hn hes hds ih₁ ih₂ =>
    intro rest hr
    rw [List.cons_append, List.append_assoc, List.append_assoc]
    have hs : (Phrase.arguments es).Stops (us ++ rest) :=
      hds.stops_append rfl (by simp [Phrase.barred]) (hr.mono (by simp [Phrase.barred]))
    have hd : mark? .dot (ts ++ (us ++ rest)) = none :=
      hes.mark?_append rfl (by decide)
        (hds.mark?_append rfl (by decide) (hr .dot (by simp [Phrase.barred])))
    exact .decorator ht (hn.gives_dottedName hd) (ih₁ _ hs) (ih₂ rest hr)
  | noArguments =>
    intro rest hr
    exact .noArguments (hr .leftParen (by simp [Phrase.barred]))
  | arguments ht _ ih =>
    exact fun rest _ => .arguments ht (ih rest (by simp [Phrase.Stops, Phrase.barred]))

/-- What a phrase is written as is derived where nothing goes on with the phrase. -/
theorem Written.derives {φ : Phrase} {ts rest : List Token} (h : Written φ ts)
    (hr : φ.Stops rest) : Derives φ (ts ++ rest) rest := by
  have hf := h.readFrom
  cases φ with
  | operand e => exact hf.operand_derives hr
  | _ => exact hf rest hr

theorem Written.given {φ : Phrase} {ts rest : List Token} (h : Written φ ts)
    (hr : φ.Stops rest) : φ.Given (ts ++ rest) rest :=
  (h.derives hr).given

end SchemaContract.Grammar
