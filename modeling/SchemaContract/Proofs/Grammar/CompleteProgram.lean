import SchemaContract.Proofs.Grammar.Complete
import SchemaContract.Proofs.Grammar.Declared
import SchemaContract.Proofs.Grammar.WrittenProgram
import SchemaContract.Schema.Source

/-!
Completeness of the rules of declarations, statements and programs: whatever they are written as is
read back.
-/
namespace SchemaContract.Grammar

variable {ts : List Token}

/-- The marks that what stands behind decorators may begin with. -/
def elementMarks : List Mark := [.ellipsis, .semicolon]

/-- The marks that end expressions wherever declarations have them. -/
def endMarks : List Mark := [.semicolon, .comma, .leftBrace, .rightBrace]

theorem gives_written_expression {e : Expression} (h : Written (.expression e) ts) {t : Token}
    {m : Mark} (ht : t.kind = .mark m) (hm : m ∈ endMarks) (rest : List Token) :
    Gives (expression (ts ++ t :: rest)) e (t :: rest) := by
  have hb : ∀ m ∈ endMarks, m ∉ (Phrase.expression e).barred := by
    simp [endMarks, Phrase.barred]
  exact h.given (Phrase.stops_cons_mark rest ht (hb m hm))

theorem gives_written_primary {e : Expression} (h : Written (.primary e) ts) {t : Token}
    {m : Mark} (ht : t.kind = .mark m) (hm : m ∈ endMarks) (rest : List Token) :
    Gives (primary (ts ++ t :: rest)) e (t :: rest) := by
  have hb : ∀ m ∈ endMarks, m ∉ (Phrase.primary e).barred := by
    simp [endMarks, Phrase.barred]
  exact h.given (Phrase.stops_cons_mark rest ht (hb m hm))

theorem gives_written_members {place : MemberList} {ms : List Member}
    (h : Written (.members place ms) ts) (rest : List Token) :
    Gives (members place (ts ++ rest)) ms rest :=
  h.given (by simp [Phrase.Stops, Phrase.barred])

theorem gives_written_decorators {ds : List Decorator} (h : Written (.decorators ds) ts)
    {rest : List Token} (hr : BeginsWith elementMarks rest) :
    Gives (decorators (ts ++ rest)) ds rest :=
  h.given (hr.stops (by simp [Phrase.barred, elementMarks]))

/-- Decorators and what follows them do not begin with a closing brace. -/
theorem mark?_written_decorators {ds : List Decorator} (h : Written (.decorators ds) ts)
    {rest : List Token} (hr : BeginsWith elementMarks rest) :
    mark? .rightBrace (ts ++ rest) = none :=
  h.mark?_append rfl (by decide) (hr.mark?_eq_none (by decide))

theorem beginsWith_cons_key {marks : List Mark} {t : Token} {k : Key} (ht : t.kind = k.token)
    (ts : List Token) : BeginsWith marks (t :: ts) := by
  apply beginsWith_cons_of_ne
  rw [ht]
  exact k.token_ne_mark

theorem beginsWith_cons_name {marks : List Mark} {t : Token} {n : String}
    (ht : t.kind = .name n) (ts : List Token) : BeginsWith marks (t :: ts) :=
  beginsWith_cons_of_ne ts (by simp [ht])

/-- What is written as a list is read, provided that the rule for lists reads the closing brace and
each element in front of what ends it. -/
theorem WrittenList.reads {α : Type} {element : α → List Token → Prop} {as : List α}
    {rule : (ts : List Token) → Except Fault (Found Token ts.length (List α))}
    (h : WrittenList element as ts) (what : Expectation)
    (hclose : ∀ t ts, t.kind = .mark .rightBrace → Gives (rule (t :: ts)) [] ts)
    (helement : ∀ a ts, element a ts → ∀ t m us, t.kind = .mark m → m ∈ endMarks → ∀ us' as rest,
      Gives (separator .rightBrace what (t :: us)) () us' → Gives (rule us') as rest →
      Gives (rule (ts ++ t :: us)) (a :: as) rest)
    (rest : List Token) : Gives (rule (ts ++ rest)) as rest := by
  induction h with
  | none ht => exact hclose _ _ ht
  | last ha ht =>
    rw [List.append_assoc]
    exact helement _ _ ha _ _ _ ht (by decide) _ _ _
      (gives_separator_close ht (by decide) _ _) (hclose _ _ ht)
  | more ha ht _ ih =>
    rw [List.append_assoc]
    have hs := gives_separator ht .rightBrace what
    rcases ht with ht | ht
    · exact helement _ _ ha _ _ _ ht (by decide) _ _ _ (hs _) ih
    · exact helement _ _ ha _ _ _ ht (by decide) _ _ _ (hs _) ih

/-- A case is read in front of what ends it, and it is no closing brace. -/
theorem gives_written_case {c : Case} (h : WrittenCase c ts) {t : Token} {m : Mark}
    (ht : t.kind = .mark m) (hm : m ∈ endMarks) (rest : List Token) :
    mark? .rightBrace (ts ++ t :: rest) = none ∧
      ∃ ds mid, Gives (decorators (ts ++ t :: rest)) ds mid ∧
        Gives (enumerationCase ds mid) c (t :: rest) := by
  cases h with
  | @spread u ts us ds e hds he hw =>
    have hb : BeginsWith elementMarks (u :: (us ++ t :: rest)) :=
      beginsWith_cons_mark _ he (by decide)
    have htarget := gives_written_primary hw ht hm rest
    rw [List.append_assoc]
    refine ⟨mark?_written_decorators hds hb, ds, _, gives_written_decorators hds hb, ?_⟩
    exact (gives_enumerationCase_cons he).2 ⟨e, htarget, rfl⟩
  | @plain u ts ds k hds hk =>
    have hb : BeginsWith elementMarks (u :: t :: rest) := beginsWith_cons_key hk _
    have hcolon : mark? .colon (t :: rest) = none := by
      apply mark?_cons_of_ne
      rw [ht]
      rintro ⟨⟩
      exact absurd hm (by decide)
    rw [List.append_assoc]
    refine ⟨mark?_written_decorators hds hb, ds, _, gives_written_decorators hds hb, ?_⟩
    exact (gives_enumerationCase_of_key hk).2 (.inr ⟨hcolon, rfl, rfl⟩)
  | @valued u v ts us ds k e hds hk hcolon hw =>
    have hb : BeginsWith elementMarks (u :: v :: (us ++ t :: rest)) := beginsWith_cons_key hk _
    have hvalue := gives_written_primary hw ht hm rest
    rw [List.append_assoc]
    refine ⟨mark?_written_decorators hds hb, ds, _, gives_written_decorators hds hb, ?_⟩
    exact (gives_enumerationCase_of_key hk).2 (.inl ⟨v, _, e, rfl, hcolon, hvalue, rfl⟩)

theorem gives_written_cases {cs : List Case} (h : WrittenList WrittenCase cs ts)
    (rest : List Token) : Gives (enumerationCases (ts ++ rest)) cs rest := by
  refine h.reads .caseSeparator ?_ ?_ rest
  · intro t ts ht
    exact (gives_enumerationCases_cons ht).2 ⟨rfl, rfl⟩
  · intro c ts hc t m us ht hm us' cs rest hs hr
    obtain ⟨hopen, ds, mid, hds, hcase⟩ := gives_written_case hc ht hm us
    exact (gives_enumerationCases_of_none hopen).2
      ⟨ds, mid, hds, c, _, hcase, us', hs, cs, hr, rfl⟩

/-- A signature is read for the operation that has these decorators. -/
theorem gives_written_signature {o : Operation} (h : WrittenSignature o ts) {t : Token} {m : Mark}
    (ht : t.kind = .mark m) (hm : m ∈ endMarks) (rest : List Token) :
    Gives (operation o.decorators (ts ++ t :: rest)) o (t :: rest) := by
  cases h with
  | @signature u v w ts us n ds ps e hn hv hps hw he =>
    rw [List.cons_append, List.cons_append, List.append_assoc]
    exact gives_operation_iff.2 ⟨u, v, _, n, rfl, hn, hv, ps, w, _,
      gives_written_members hps _, hw, e, gives_written_expression he ht hm rest, rfl⟩

theorem WrittenSignature.begins {o : Operation} (h : WrittenSignature o ts) :
    ∃ t us, ts = t :: us ∧ t.kind = .name o.name := by
  cases h with
  | signature hn _ _ _ _ => exact ⟨_, _, rfl, hn⟩

theorem gives_written_operation {o : Operation} (h : WrittenOperation o ts) {t : Token} {m : Mark}
    (ht : t.kind = .mark m) (hm : m ∈ endMarks) (rest : List Token) :
    mark? .rightBrace (ts ++ t :: rest) = none ∧
      ∃ ds mid, Gives (decorators (ts ++ t :: rest)) ds mid ∧
        Gives (operation ds (optionalWord "op" mid).rest) o (t :: rest) := by
  cases h with
  | @short ts us o hds hne hw =>
    obtain ⟨u, us', rfl, hu⟩ := hw.begins
    have hb : BeginsWith elementMarks (u :: (us' ++ t :: rest)) := beginsWith_cons_name hu _
    have hop : u.kind ≠ .name "op" := by
      rw [hu]
      simpa using hne
    have hword : (optionalWord "op" (u :: (us' ++ t :: rest))).rest = u :: (us' ++ t :: rest) :=
      (optionalWord_of_ne hop).2
    have hoperation := gives_written_signature hw ht hm rest
    rw [List.append_assoc]
    refine ⟨mark?_written_decorators hds hb, _, _, gives_written_decorators hds hb, ?_⟩
    rwa [List.cons_append, hword]
  | @long u ts us o hds hu hw =>
    have hb : BeginsWith elementMarks (u :: (us ++ t :: rest)) := beginsWith_cons_name hu _
    have hword : (optionalWord "op" (u :: (us ++ t :: rest))).rest = us ++ t :: rest :=
      (optionalWord_of_eq hu).2
    have hoperation := gives_written_signature hw ht hm rest
    rw [List.append_assoc]
    refine ⟨mark?_written_decorators hds hb, _, _, gives_written_decorators hds hb, ?_⟩
    rwa [List.cons_append, hword]

theorem gives_written_operations {os : List Operation} (h : WrittenList WrittenOperation os ts)
    (rest : List Token) : Gives (interfaceOperations (ts ++ rest)) os rest := by
  refine h.reads .operationSeparator ?_ ?_ rest
  · intro t ts ht
    exact (gives_interfaceOperations_cons ht).2 ⟨rfl, rfl⟩
  · intro o ts ho t m us ht hm us' os rest hs hr
    obtain ⟨hopen, ds, mid, hds, hoperation⟩ := gives_written_operation ho ht hm us
    exact (gives_interfaceOperations_of_none hopen).2
      ⟨ds, mid, hds, o, _, hoperation, us', hs, os, hr, rfl⟩

theorem gives_written_variants {vs : List Variant} (h : WrittenList WrittenVariant vs ts)
    (rest : List Token) : Gives (unionVariants (ts ++ rest)) vs rest := by
  refine h.reads .variantSeparator ?_ ?_ rest
  · intro t ts ht
    exact (gives_unionVariants_cons ht).2 ⟨rfl, rfl⟩
  · intro v ts hv t m us ht hm us' vs rest hs hr
    cases hv with
    | @variant u w ts ws ds k e hds hk hcolon he =>
      have hb : BeginsWith elementMarks (u :: w :: (ws ++ t :: us)) := beginsWith_cons_key hk _
      have htype := gives_written_expression he ht hm us
      have hopen := mark?_written_decorators hds hb
      have hdecorators := gives_written_decorators hds hb
      rw [List.append_assoc]
      exact (gives_unionVariants_of_none hopen).2
        ⟨ds, u, w, _, k, hdecorators, hk, hcolon, e, _, htype, us', hs, vs, hr, rfl⟩

theorem behindBlock_open {t : Token} (ht : t.kind = .mark .leftBrace) (depth : Nat)
    (ts : List Token) : behindBlock depth (t :: ts) = behindBlock (depth + 1) ts := by
  cases depth <;> simp [behindBlock, ht]

theorem behindBlock_close {t : Token} (ht : t.kind = .mark .rightBrace) (ts : List Token) :
    behindBlock 0 (t :: ts) = some ts := by
  simp [behindBlock, ht]

theorem behindBlock_close_succ {t : Token} (ht : t.kind = .mark .rightBrace) (depth : Nat)
    (ts : List Token) : behindBlock (depth + 1) (t :: ts) = behindBlock depth ts := by
  simp [behindBlock, ht]

theorem behindBlock_of_ne {t : Token} (hl : t.kind ≠ .mark .leftBrace)
    (hr : t.kind ≠ .mark .rightBrace) (depth : Nat) (ts : List Token) :
    behindBlock depth (t :: ts) = behindBlock depth ts := by
  cases depth <;> simp [behindBlock, hl, hr]

theorem Balanced.behindBlock_append (h : Balanced ts) (depth : Nat) (rest : List Token) :
    behindBlock depth (ts ++ rest) = behindBlock depth rest := by
  induction h generalizing depth rest with
  | nil => rfl
  | cons hl hr _ ih => rw [List.cons_append, behindBlock_of_ne hl hr, ih]
  | @block t u ts us ht _ hu _ ih₁ ih₂ =>
    rw [List.cons_append, List.append_assoc, behindBlock_open ht, ih₁, List.cons_append,
      behindBlock_close_succ hu, ih₂]

theorem Balanced.behindBlock_close (h : Balanced ts) {t : Token}
    (ht : t.kind = .mark .rightBrace) (rest : List Token) :
    behindBlock 0 (ts ++ t :: rest) = some rest := by
  rw [h.behindBlock_append, Grammar.behindBlock_close ht]

theorem gives_written_projection {us : List Token} {u v : Token}
    (h : ∀ w ∈ ts, w.kind ≠ .mark .leftBrace) (hu : u.kind = .mark .leftBrace)
    (hus : Balanced us) (hv : v.kind = .mark .rightBrace) (rest : List Token) :
    Gives (projection (ts ++ u :: (us ++ v :: rest))) () rest := by
  induction ts with
  | nil => exact (gives_projection_of_eq hu).2 (hus.behindBlock_close hv rest)
  | cons w ts ih =>
    rw [List.cons_append]
    refine (gives_projection_of_ne (h w List.mem_cons_self)).2 ?_
    exact ih fun w hw => h w (List.mem_cons_of_mem _ hw)

theorem WrittenSkipped.recovered_append (h : WrittenSkipped ts) (rest : List Token) :
    recovered (ts ++ rest) = rest := by
  induction h with
  | semicolon ht =>
    rw [List.singleton_append, recovered, if_pos ht]
  | @block t u ts ht hts hu =>
    have hne : t.kind ≠ .mark .semicolon := by simp [ht]
    rw [List.cons_append, recovered, if_neg hne, if_pos ht, List.append_assoc]
    rw [List.singleton_append, hts.behindBlock_close hu]
    rfl
  | @cons t ts ht _ ih =>
    simp only [List.mem_cons, List.not_mem_nil, or_false, not_or] at ht
    rw [List.cons_append, recovered, if_neg ht.1, if_neg ht.2.1, if_neg ht.2.2, ih]

theorem gives_written_model {target? : Option Expression} {ms : List Member}
    (h : WrittenModel target? ms ts) (rest : List Token) :
    mark? .less (ts ++ rest) = none ∧
      ∃ mid, Gives (modelTarget (ts ++ rest)) target? mid ∧
        Gives (modelBody target? mid) ms rest := by
  cases h with
  | @body t ts ms ht hms =>
    have hne : t.kind ≠ .name "is" := by simp [ht]
    obtain ⟨hv, hr⟩ := @optionalWord_of_ne (ts ++ rest) "is" t hne
    refine ⟨mark?_cons_of_ne (by simp [ht]), t :: (ts ++ rest), ?_, ?_⟩
    · exact gives_modelTarget_iff.2 (.inr ⟨hv, rfl, hr⟩)
    · exact (gives_modelBody_cons ht).2 (gives_written_members hms rest)
  | @target t u ts e ht he hu =>
    rw [List.cons_append, List.append_assoc]
    obtain ⟨hv, hr⟩ := @optionalWord_of_eq (ts ++ u :: rest) _ _ ht
    refine ⟨mark?_cons_of_ne (by simp [ht]), u :: rest, ?_, ?_⟩
    · refine gives_modelTarget_iff.2 (.inl ⟨hv, e, ?_, rfl⟩)
      rw [List.singleton_append, hr]
      exact gives_written_expression he hu (by decide) rest
    · exact (gives_modelBody_of_none (mark?_cons_of_ne (by simp [hu]))).2 ⟨rfl, rfl, u, rfl, hu⟩
  | @both t u ts us e ms ht he hu hms =>
    rw [List.cons_append, List.append_assoc, List.cons_append]
    obtain ⟨hv, hr⟩ := @optionalWord_of_eq (ts ++ u :: (us ++ rest)) _ _ ht
    refine ⟨mark?_cons_of_ne (by simp [ht]), u :: (us ++ rest), ?_, ?_⟩
    · refine gives_modelTarget_iff.2 (.inl ⟨hv, e, ?_, rfl⟩)
      rw [hr]
      exact gives_written_expression he hu (by decide) _
    · exact (gives_modelBody_cons hu).2 (gives_written_members hms rest)

/-- A declaration begins with its keyword, or is a semicolon, and is read from there. -/
theorem gives_written_declaration {ds : List Decorator} {s : Statement}
    (h : WrittenDeclaration ds s ts) (rest : List Token) :
    ∃ t us, ts = t :: us ∧ BeginsWith [.semicolon] ts ∧
      Gives (declaration ds t (us ++ rest)) s rest := by
  cases h with
  | empty ht =>
    exact ⟨_, _, rfl, beginsWith_cons_mark _ ht (by decide),
      (gives_declaration_semicolon ht).2 ⟨rfl, rfl⟩⟩
  | importPath ht hu hv =>
    refine ⟨_, _, rfl, beginsWith_cons_name ht _, (gives_declaration_keyword ht rfl).2 ?_⟩
    exact gives_importPath_iff.2 ⟨_, _, _, rfl, hu, hv, rfl⟩
  | usingName ht hn hu =>
    refine ⟨_, _, rfl, beginsWith_cons_name ht _, (gives_declaration_keyword ht rfl).2 ?_⟩
    rw [List.append_assoc]
    exact gives_usingName_iff.2
      ⟨_, _, hn.gives_dottedName (mark?_cons_of_ne (by simp [hu])), hu, rfl⟩
  | emptyScope ht hn hu =>
    refine ⟨_, _, rfl, beginsWith_cons_name ht _, (gives_declaration_keyword ht rfl).2 ?_⟩
    rw [List.append_assoc]
    exact gives_scope_iff.2 ⟨_, _, hn.gives_dottedName (mark?_cons_of_ne (by simp [hu])),
      .inr ⟨mark?_cons_of_ne (by simp [hu]), _, rfl, hu, rfl⟩⟩
  | model ht hu hm =>
    obtain ⟨hl, mid, htarget, hbody⟩ := gives_written_model hm rest
    refine ⟨_, _, rfl, beginsWith_cons_name ht _, (gives_declaration_keyword ht rfl).2 ?_⟩
    exact ⟨_, gives_model_iff.2 ⟨_, _, _, rfl, hu, hl, _, _, htarget, _, hbody, rfl⟩, rfl⟩
  | enumeration ht hu hv hcs =>
    refine ⟨_, _, rfl, beginsWith_cons_name ht _, (gives_declaration_keyword ht rfl).2 ?_⟩
    exact ⟨_, gives_enumeration_iff.2
      ⟨_, _, _, _, rfl, hu, hv, _, gives_written_cases hcs rest, rfl⟩, rfl⟩
  | interface ht hu hv hos =>
    refine ⟨_, _, rfl, beginsWith_cons_name ht _, (gives_declaration_keyword ht rfl).2 ?_⟩
    exact ⟨_, gives_interface_iff.2
      ⟨_, _, _, _, rfl, hu, hv, _, gives_written_operations hos rest, rfl⟩, rfl⟩
  | operation ht hds hw hu =>
    refine ⟨_, _, rfl, beginsWith_cons_name ht _, (gives_declaration_keyword ht rfl).2 ?_⟩
    rw [List.append_assoc]
    refine ⟨_, gives_bareOperation_iff.2 ⟨_, ?_, hu⟩, rfl⟩
    rw [← hds]
    exact gives_written_signature hw hu (by decide) rest
  | union ht hu hv hvs =>
    refine ⟨_, _, rfl, beginsWith_cons_name ht _, (gives_declaration_keyword ht rfl).2 ?_⟩
    exact gives_union_iff.2 ⟨_, _, _, _, rfl, hu, hv, _, gives_written_variants hvs rest, rfl⟩
  | typeAlias ht hu hv he hw =>
    refine ⟨_, _, rfl, beginsWith_cons_name ht _, (gives_declaration_keyword ht rfl).2 ?_⟩
    rw [List.cons_append, List.cons_append, List.append_assoc]
    exact gives_typeAlias_iff.2 ⟨_, _, _, _, rfl, hu, hv, _, _,
      gives_written_expression he hw (by decide) rest, hw, rfl⟩
  | projection ht hts hu hus hv =>
    refine ⟨_, _, rfl, beginsWith_cons_name ht _, (gives_declaration_keyword ht rfl).2 ?_⟩
    rw [List.append_assoc, List.cons_append, List.append_assoc]
    exact ⟨gives_written_projection hts hu hus hv rest, rfl⟩

/-- A statement is read from the tokens, whatever follows them. -/
def ReadsStatement (s : Statement) (ts : List Token) : Prop :=
  ∀ rest, mark? .rightBrace (ts ++ rest) = none ∧
    ∃ ds t us, Gives (decorators (ts ++ rest)) ds (t :: us) ∧ Gives (declaration ds t us) s rest

theorem readsStatement_declaration {us : List Token} {ds : List Decorator} {s : Statement}
    (hds : Written (.decorators ds) ts) (h : WrittenDeclaration ds s us) :
    ReadsStatement s (ts ++ us) := by
  intro rest
  obtain ⟨t, vs, rfl, hb, hg⟩ := gives_written_declaration h rest
  have hb' := (hb.append rest).mono (by decide : [.semicolon] ⊆ elementMarks)
  rw [List.append_assoc]
  exact ⟨mark?_written_decorators hds hb', ds, t, _, gives_written_decorators hds hb', hg⟩

theorem readsStatement_invalid {t : Token} (ht : BeginsSkipped t)
    (h : WrittenSkipped (t :: ts)) : ReadsStatement .invalid (t :: ts) := by
  intro rest
  obtain ⟨hm, hk⟩ := ht
  simp only [List.mem_cons, List.not_mem_nil, or_false, not_or] at hm
  have hs : skipStatement t (ts ++ rest) = rest := by
    rw [skipStatement, if_neg hm.2.1]
    exact h.recovered_append rest
  exact ⟨mark?_cons_of_ne hm.2.1, [], t, ts ++ rest,
    (gives_decorators_of_none (mark?_cons_of_ne hm.2.2)).2 ⟨rfl, rfl⟩,
    (gives_declaration_skipped hm.1 hk).2 ⟨rfl, hs⟩⟩

theorem gives_statement_of_decorators {ds : List Decorator} {s : Statement} {t : Token}
    {us rest : List Token} (hd : Gives (decorators ts) ds (t :: us))
    (hs : Gives (declaration ds t us) s rest) :
    ∃ u vs, ts = u :: vs ∧ Gives (statement u vs) s rest := by
  cases ts with
  | nil =>
    obtain ⟨-, he⟩ := (gives_decorators_of_none (mark?_nil _)).1 hd
    cases he
  | cons u vs => exact ⟨u, vs, rfl, gives_statement_iff.2 ⟨ds, _, hd, .inr ⟨t, us, rfl, hs⟩⟩⟩

theorem ReadsStatement.gives_block {s : Statement} {ss : List Statement} (h : ReadsStatement s ts)
    {us rest : List Token} (hb : Gives (block us) ss rest) :
    Gives (block (ts ++ us)) (s :: ss) rest := by
  obtain ⟨hm, ds, t, vs, hd, hs⟩ := h us
  obtain ⟨u, ws, hts, hg⟩ := gives_statement_of_decorators hd hs
  rw [hts] at hm ⊢
  exact (gives_block_of_ne (mark?_cons_eq_none_iff.1 hm)).2 ⟨s, us, hg, ss, hb, rfl⟩

theorem ReadsStatement.statements_eq {s : Statement} {ss : List Statement}
    (h : ReadsStatement s ts) {us : List Token} (hs : statements us = .ok ss) :
    statements (ts ++ us) = .ok (s :: ss) := by
  obtain ⟨-, ds, t, vs, hd, hg⟩ := h us
  obtain ⟨u, ws, hts, hg⟩ := gives_statement_of_decorators hd hg
  rw [hts]
  exact statements_cons_iff.2 ⟨s, us, hg, ss, hs, rfl⟩

theorem readsStatement_scope {t u v : Token} {ns us : List Token} {ds : List Decorator}
    {n : String} {inner : List Statement} (hds : Written (.decorators ds) ts)
    (ht : t.kind = .name "namespace") (hn : WrittenName n ns) (hu : u.kind = .mark .leftBrace)
    (hv : ∀ rest, Gives (block (us ++ v :: rest)) inner rest) :
    ReadsStatement (.scope n ds inner) (ts ++ t :: (ns ++ u :: (us ++ [v]))) := by
  intro rest
  have hts : ts ++ t :: (ns ++ u :: (us ++ [v])) ++ rest =
      ts ++ t :: (ns ++ u :: (us ++ v :: rest)) := by simp
  have hb : BeginsWith elementMarks (t :: (ns ++ u :: (us ++ v :: rest))) :=
    beginsWith_cons_name ht _
  have hd : Gives (dottedName (ns ++ u :: (us ++ v :: rest))) n (u :: (us ++ v :: rest)) :=
    hn.gives_dottedName (mark?_cons_of_ne (by simp [hu]))
  rw [hts]
  refine ⟨mark?_written_decorators hds hb, ds, t, _, gives_written_decorators hds hb, ?_⟩
  refine (gives_declaration_keyword ht rfl).2 ?_
  exact gives_scope_iff.2 ⟨n, _, hd, .inl ⟨u, _, inner, rfl, hu, hv rest, rfl⟩⟩

/-- Statements are read, both in a block up to its closing brace and up to the end. -/
theorem WrittenStatements.reads {ss : List Statement} (h : WrittenStatements ss ts) :
    (∀ t rest, t.kind = .mark .rightBrace → Gives (block (ts ++ t :: rest)) ss rest) ∧
      statements ts = .ok ss := by
  induction h with
  | nil => exact ⟨fun t rest ht => (gives_block_cons ht).2 ⟨rfl, rfl⟩, statements_nil⟩
  | @declaration ts us vs ds s ss hds hs _ ih =>
    have hr := readsStatement_declaration hds hs
    rw [← List.append_assoc]
    refine ⟨fun t rest ht => ?_, hr.statements_eq ih.2⟩
    rw [List.append_assoc]
    exact hr.gives_block (ih.1 t rest ht)
  | @scope t u v ts ns us vs ds n inner ss hds ht hn hu _ hv _ ih₁ ih₂ =>
    have hr := readsStatement_scope hds ht hn hu fun rest => ih₁.1 v rest hv
    have hts : ts ++ t :: (ns ++ u :: (us ++ v :: vs)) =
        (ts ++ t :: (ns ++ u :: (us ++ [v]))) ++ vs := by
      simp only [List.append_assoc, List.cons_append, List.nil_append]
    rw [hts]
    refine ⟨fun t rest ht => ?_, hr.statements_eq ih₂.2⟩
    rw [List.append_assoc]
    exact hr.gives_block (ih₂.1 t rest ht)
  | @invalid t ts us ss ht hs _ ih =>
    have hr := readsStatement_invalid ht hs
    refine ⟨fun t' rest ht' => ?_, hr.statements_eq ih.2⟩
    rw [← List.cons_append, List.append_assoc]
    exact hr.gives_block (ih.1 t' rest ht')

end SchemaContract.Grammar
