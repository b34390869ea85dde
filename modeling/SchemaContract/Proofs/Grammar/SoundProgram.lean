import SchemaContract.Proofs.Grammar.CompleteProgram
import SchemaContract.Proofs.Grammar.Sound

/-!
Soundness of the rules of declarations and statements: a statement that is read is a declaration as
it may be written, a namespace around statements, or one that is skipped.
-/
namespace SchemaContract.Grammar

variable {ts rest : List Token}

theorem before_members {place : MemberList} {ms : List Member}
    (h : Gives (members place ts) ms rest) : Before (Written (.members place ms)) ts rest :=
  Phrase.Given.written (φ := .members place ms) h

theorem before_expression {e : Expression} (h : Gives (expression ts) e rest) :
    Before (Written (.expression e)) ts rest :=
  Phrase.Given.written (φ := .expression e) h

theorem before_primary {e : Expression} (h : Gives (primary ts) e rest) :
    Before (Written (.primary e)) ts rest :=
  Phrase.Given.written (φ := .primary e) h

theorem before_decorators {ds : List Decorator} (h : Gives (decorators ts) ds rest) :
    Before (Written (.decorators ds)) ts rest :=
  Phrase.Given.written (φ := .decorators ds) h

/-- What a rule for lists finds is written as a list, provided that the rule stops at the closing
brace only and finds an element in front of each separator. -/
theorem before_list {α : Type} {element : α → List Token → Prop} (what : Expectation)
    {rule : (ts : List Token) → Except Fault (Found Token ts.length (List α))}
    (hclose : ∀ {t ts as rest}, t.kind = .mark .rightBrace → Gives (rule (t :: ts)) as rest →
      [] = as ∧ ts = rest)
    (helement : ∀ {ts as rest}, mark? .rightBrace ts = none → Gives (rule ts) as rest →
      ∃ a mid mid' others, Before (element a) ts mid ∧
        Gives (separator .rightBrace what mid) () mid' ∧ Gives (rule mid') others rest ∧
        a :: others = as)
    {as : List α} (h : Gives (rule ts) as rest) : Before (WrittenList element as) ts rest := by
  induction hl : ts.length using Nat.strongRecOn generalizing ts as with
  | _ l ih =>
    rcases mark?_cases .rightBrace ts with hc | ⟨t, us, rfl, ht⟩
    · obtain ⟨a, mid, mid', others, ⟨us, rfl, ha⟩, hs, hothers, rfl⟩ := helement hc h
      obtain ⟨t, ws, rfl, ⟨ht, rfl⟩ | ⟨_, ht, rfl⟩⟩ := gives_separator_iff.1 hs
      · simp only [List.length_append, List.length_cons] at hl
        obtain ⟨xs, rfl, hxs⟩ := ih _ (by omega) hothers rfl
        exact ⟨us ++ t :: xs, by simp, .more ha ht hxs⟩
      · obtain ⟨rfl, rfl⟩ := hclose ht hothers
        exact ⟨us ++ [t], by simp, .last ha ht⟩
    · obtain ⟨rfl, rfl⟩ := hclose ht h
      exact ⟨[t], rfl, .none ht⟩

theorem before_case {ds : List Decorator} {c : Case} {mid : List Token}
    (hds : Gives (decorators ts) ds mid) (h : Gives (enumerationCase ds mid) c rest) :
    Before (WrittenCase c) ts rest := by
  obtain ⟨us, rfl, hus⟩ := before_decorators hds
  rcases mark?_cases .ellipsis mid with he | ⟨t, vs, rfl, ht⟩
  · obtain ⟨t, vs, k, rfl, ht⟩ : ∃ t vs k, mid = t :: vs ∧ t.kind = Key.token k := by
      rw [enumerationCase, he] at h
      obtain ⟨k, vs, hlt, hk, -⟩ := gives_bind_iff.1 h
      obtain ⟨t, rfl, ht⟩ := gives_key_iff.1 ⟨hlt, hk⟩
      exact ⟨t, vs, k, rfl, ht⟩
    rcases (gives_enumerationCase_of_key ht).1 h with
      ⟨u, ws, e, rfl, hu, he, rfl⟩ | ⟨-, rfl, rfl⟩
    · obtain ⟨ws, rfl, hws⟩ := before_primary he
      exact ⟨us ++ t :: u :: ws, by simp, .valued hus ht hu hws⟩
    · exact ⟨us ++ [t], by simp, .plain hus ht⟩
  · obtain ⟨e, he, rfl⟩ := (gives_enumerationCase_cons ht).1 h
    obtain ⟨vs, rfl, hvs⟩ := before_primary he
    exact ⟨us ++ t :: vs, by simp, .spread hus ht hvs⟩

theorem before_cases {cs : List Case} (h : Gives (enumerationCases ts) cs rest) :
    Before (WrittenList WrittenCase cs) ts rest := by
  refine before_list .caseSeparator (fun ht h => (gives_enumerationCases_cons ht).1 h) ?_ h
  intro ts cs rest hc h
  obtain ⟨ds, ts₁, hds, c, ts₂, hcase, ts₃, hs, others, ho, rfl⟩ :=
    (gives_enumerationCases_of_none hc).1 h
  exact ⟨c, ts₂, ts₃, others, before_case hds hcase, hs, ho, rfl⟩

theorem before_signature {ds : List Decorator} {o : Operation}
    (h : Gives (operation ds ts) o rest) :
    Before (WrittenSignature o) ts rest ∧ o.decorators = ds := by
  obtain ⟨t, u, us, n, rfl, ht, hu, ps, v, vs, hps, hv, e, he, rfl⟩ := gives_operation_iff.1 h
  obtain ⟨us, rfl, hus⟩ := before_members hps
  obtain ⟨vs, rfl, hvs⟩ := before_expression he
  exact ⟨⟨t :: u :: (us ++ v :: vs), by simp, .signature ht hu hus hv hvs⟩, rfl⟩

theorem before_operation {ds : List Decorator} {o : Operation} {mid : List Token}
    (hds : Gives (decorators ts) ds mid)
    (h : Gives (operation ds (optionalWord "op" mid).rest) o rest) :
    Before (WrittenOperation o) ts rest := by
  obtain ⟨us, rfl, hus⟩ := before_decorators hds
  obtain ⟨⟨vs, hvs, hw⟩, rfl⟩ := before_signature h
  by_cases hop : ∃ t ws, mid = t :: ws ∧ t.kind = .name "op"
  · obtain ⟨t, ws, rfl, ht⟩ := hop
    rw [(optionalWord_of_eq ht).2] at hvs
    exact ⟨us ++ t :: vs, by simp [hvs], .long hus ht hw⟩
  · obtain ⟨t, ws, rfl, ht⟩ := hw.begins
    have hmid : mid = t :: ws ++ rest := by
      cases mid with
      | nil => exact hvs
      | cons u vs =>
        rwa [(optionalWord_of_ne fun hu => hop ⟨u, vs, rfl, hu⟩).2] at hvs
    refine ⟨us ++ t :: ws, by simp [hmid], .short hus ?_ hw⟩
    intro hn
    exact hop ⟨t, _, hmid, hn ▸ ht⟩

theorem before_operations {os : List Operation} (h : Gives (interfaceOperations ts) os rest) :
    Before (WrittenList WrittenOperation os) ts rest := by
  refine before_list .operationSeparator
    (fun ht h => (gives_interfaceOperations_cons ht).1 h) ?_ h
  intro ts os rest hc h
  obtain ⟨ds, ts₁, hds, o, ts₂, hoperation, ts₃, hs, others, ho, rfl⟩ :=
    (gives_interfaceOperations_of_none hc).1 h
  exact ⟨o, ts₂, ts₃, others, before_operation hds hoperation, hs, ho, rfl⟩

theorem before_variants {vs : List Variant} (h : Gives (unionVariants ts) vs rest) :
    Before (WrittenList WrittenVariant vs) ts rest := by
  refine before_list .variantSeparator (fun ht h => (gives_unionVariants_cons ht).1 h) ?_ h
  intro ts vs rest hc h
  obtain ⟨ds, t, u, us, k, hds, ht, hu, e, ts₂, he, ts₃, hs, others, ho, rfl⟩ :=
    (gives_unionVariants_of_none hc).1 h
  obtain ⟨ws, rfl, hws⟩ := before_decorators hds
  obtain ⟨us, rfl, hus⟩ := before_expression he
  refine ⟨⟨k, e⟩, ts₂, ts₃, others, ⟨ws ++ t :: u :: us, by simp, ?_⟩, hs, ho, rfl⟩
  exact .variant hws ht hu hus

/-- A block that is closed has its braces in pairs up to its own closing brace. -/
theorem behindBlock_sound {depth : Nat} (h : behindBlock depth ts = some rest) :
    ∃ inside t mid, ts = inside ++ t :: mid ∧ Balanced inside ∧ t.kind = .mark .rightBrace ∧
      (match depth with
        | 0 => mid = rest
        | depth + 1 => behindBlock depth mid = some rest) := by
  induction hl : ts.length using Nat.strongRecOn generalizing ts depth with
  | _ l ih =>
    cases ts with
    | nil => cases h
    | cons t ts =>
      rw [List.length_cons] at hl
      by_cases hopen : t.kind = .mark .leftBrace
      · rw [behindBlock_open hopen] at h
        obtain ⟨inside, u, mid, rfl, hin, hu, hmid⟩ := ih _ (by omega) h rfl
        simp only [List.length_append, List.length_cons] at hl
        obtain ⟨inside', v, mid', rfl, hin', hv, hmid'⟩ := ih _ (by omega) hmid rfl
        exact ⟨t :: (inside ++ u :: inside'), v, mid', by simp, .block hopen hin hu hin', hv, hmid'⟩
      · by_cases hclose : t.kind = .mark .rightBrace
        · refine ⟨[], t, ts, rfl, .nil, hclose, ?_⟩
          cases depth with
          | zero => rwa [behindBlock_close hclose, Option.some.injEq] at h
          | succ depth => rwa [behindBlock_close_succ hclose] at h
        · rw [behindBlock_of_ne hopen hclose] at h
          obtain ⟨inside, u, mid, rfl, hin, hu, hmid⟩ := ih _ (by omega) h rfl
          exact ⟨t :: inside, u, mid, rfl, .cons hopen hclose hin, hu, hmid⟩

/-- The block behind an opening brace. -/
theorem before_behindBlock (h : behindBlock 0 ts = some rest) :
    ∃ inside t, ts = inside ++ t :: rest ∧ Balanced inside ∧ t.kind = .mark .rightBrace := by
  obtain ⟨inside, t, mid, hts, hin, ht, rfl⟩ := behindBlock_sound h
  exact ⟨inside, t, hts, hin, ht⟩

theorem before_projection (h : Gives (projection ts) () rest) :
    ∃ header t inside u, ts = header ++ t :: (inside ++ u :: rest) ∧
      (∀ w ∈ header, w.kind ≠ .mark .leftBrace) ∧ t.kind = .mark .leftBrace ∧ Balanced inside ∧
      u.kind = .mark .rightBrace := by
  induction ts with
  | nil => exact absurd h not_gives_error
  | cons t ts ih =>
    by_cases ht : t.kind = .mark .leftBrace
    · obtain ⟨inside, u, rfl, hin, hu⟩ := before_behindBlock ((gives_projection_of_eq ht).1 h)
      exact ⟨[], t, inside, u, rfl, by simp, ht, hin, hu⟩
    · obtain ⟨header, v, inside, u, rfl, hheader, hv, hin, hu⟩ :=
        ih ((gives_projection_of_ne ht).1 h)
      refine ⟨t :: header, v, inside, u, rfl, ?_, hv, hin, hu⟩
      intro w hw
      rcases List.mem_cons.1 hw with rfl | hw
      · exact ht
      · exact hheader w hw

theorem before_modelTarget {target? : Option Expression}
    (h : Gives (modelTarget ts) target? rest) :
    (∃ t us e, ts = t :: (us ++ rest) ∧ t.kind = .name "is" ∧ Written (.expression e) us ∧
      target? = some e) ∨ ts = rest ∧ target? = none := by
  cases ts with
  | nil =>
    rcases gives_modelTarget_iff.1 h with ⟨hgiven, -⟩ | ⟨-, rfl, hrest⟩
    · cases hgiven
    · exact .inr ⟨hrest, rfl⟩
  | cons t ts =>
    by_cases ht : t.kind = .name "is"
    · obtain ⟨hvalue, hvs⟩ := @optionalWord_of_eq ts "is" t ht
      rw [gives_modelTarget_iff, hvalue, hvs] at h
      obtain ⟨-, e, he, rfl⟩ | ⟨hgiven, -⟩ := h
      · obtain ⟨us, rfl, hus⟩ := before_expression he
        exact .inl ⟨t, us, e, rfl, ht, hus, rfl⟩
      · cases hgiven
    · obtain ⟨hvalue, hvs⟩ := @optionalWord_of_ne ts "is" t ht
      rw [gives_modelTarget_iff, hvalue, hvs] at h
      obtain ⟨hgiven, -⟩ | ⟨-, rfl, rfl⟩ := h
      · cases hgiven
      · exact .inr ⟨rfl, rfl⟩

theorem before_model {ds : List Decorator} {m : Model} {t : Token}
    (ht : t.kind = .name "model") (h : Gives (model ds ts) m rest) :
    Before (WrittenDeclaration ds (.model m)) (t :: ts) rest := by
  obtain ⟨u, us, n, rfl, hu, -, target?, vs, htarget, ms, hms, rfl⟩ := gives_model_iff.1 h
  suffices hm : Before (WrittenModel target? ms) us rest by
    obtain ⟨us, rfl, hm⟩ := hm
    exact ⟨t :: u :: us, rfl, .model ht hu hm⟩
  rcases mark?_cases .leftBrace vs with hb | ⟨w, vs, rfl, hw⟩
  · obtain ⟨hsome, rfl, w, rfl, hw⟩ := (gives_modelBody_of_none hb).1 hms
    obtain ⟨v, us, e, rfl, hv, he, rfl⟩ | ⟨-, rfl⟩ := before_modelTarget htarget
    · exact ⟨v :: (us ++ [w]), by simp, .target hv he hw⟩
    · cases hsome
  · obtain ⟨vs, rfl, hbody⟩ := before_members ((gives_modelBody_cons hw).1 hms)
    obtain ⟨v, us, e, rfl, hv, he, rfl⟩ | ⟨rfl, rfl⟩ := before_modelTarget htarget
    · exact ⟨v :: (us ++ w :: vs), by simp, .both hv he hw hbody⟩
    · exact ⟨w :: vs, rfl, .body hw hbody⟩

/-- What a statement is read as, behind its decorators. -/
inductive ReadAs (ds : List Decorator) : Statement → List Token → List Token → Prop where
  | declaration {us rest : List Token} {s : Statement} :
      WrittenDeclaration ds s us → ReadAs ds s (us ++ rest) rest
  | scope {t u : Token} {ns us rest : List Token} {n : String} {ss : List Statement} :
      t.kind = .name "namespace" → WrittenName n ns → u.kind = .mark .leftBrace →
      Gives (block us) ss rest → ReadAs ds (.scope n ds ss) (t :: (ns ++ u :: us)) rest
  /-- Nothing behind decorators. -/
  | ended : ReadAs ds .invalid [] []
  | skipped {t : Token} {us : List Token} :
      t.kind ≠ .mark .semicolon → (∀ word, t.kind = .name word → Keyword.ofName? word = none) →
      ReadAs ds .invalid (t :: us) (skipStatement t us)

theorem ReadAs.of_before {ds : List Decorator} {s : Statement}
    (h : Before (WrittenDeclaration ds s) ts rest) : ReadAs ds s ts rest := by
  obtain ⟨us, rfl, hw⟩ := h
  exact .declaration hw

theorem readAs_scope {ds : List Decorator} {s : Statement} {t : Token}
    (ht : t.kind = .name "namespace") (h : Gives (scope ds ts) s rest) :
    ReadAs ds s (t :: ts) rest := by
  obtain ⟨n, us, hn, ⟨u, vs, ss, rfl, hu, hss, rfl⟩ | ⟨-, u, rfl, hu, rfl⟩⟩ :=
    gives_scope_iff.1 h
  · obtain ⟨ns, rfl, hns⟩ := before_dottedName hn
    exact .scope ht hns hu hss
  · obtain ⟨ns, rfl, hns⟩ := before_dottedName hn
    exact .of_before ⟨t :: (ns ++ [u]), by simp, .emptyScope ht hns hu⟩

theorem readAs_keyword {ds : List Decorator} {s : Statement} {t : Token} {word : String}
    {k : Keyword} (ht : t.kind = .name word) (hk : Keyword.ofName? word = some k)
    (h : k.Declares ds ts s rest) : ReadAs ds s (t :: ts) rest := by
  unfold Keyword.ofName? at hk
  split at hk <;> cases hk <;> simp only [Keyword.Declares] at h
  · obtain ⟨u, v, path, rfl, hu, hv, rfl⟩ := gives_importPath_iff.1 h
    exact .of_before ⟨[t, u, v], rfl, .importPath ht hu hv⟩
  · obtain ⟨n, u, hn, hu, rfl⟩ := gives_usingName_iff.1 h
    obtain ⟨ns, rfl, hns⟩ := before_dottedName hn
    exact .of_before ⟨t :: (ns ++ [u]), by simp, .usingName ht hns hu⟩
  · exact readAs_scope ht h
  · obtain ⟨m, hm, rfl⟩ := h
    exact .of_before (before_model ht hm)
  · obtain ⟨e, he, rfl⟩ := h
    obtain ⟨u, v, us, n, rfl, hu, hv, cs, hcs, rfl⟩ := gives_enumeration_iff.1 he
    obtain ⟨us, rfl, hus⟩ := before_cases hcs
    exact .of_before ⟨t :: u :: v :: us, rfl, .enumeration ht hu hv hus⟩
  · obtain ⟨i, hi, rfl⟩ := h
    obtain ⟨u, v, us, n, rfl, hu, hv, os, hos, rfl⟩ := gives_interface_iff.1 hi
    obtain ⟨us, rfl, hus⟩ := before_operations hos
    exact .of_before ⟨t :: u :: v :: us, rfl, .interface ht hu hv hus⟩
  · obtain ⟨o, ho, rfl⟩ := h
    obtain ⟨u, ho, hu⟩ := gives_bareOperation_iff.1 ho
    obtain ⟨⟨us, rfl, hw⟩, hds⟩ := before_signature ho
    exact .of_before ⟨t :: (us ++ [u]), by simp, .operation ht hds hw hu⟩
  · obtain ⟨u, v, us, n, rfl, hu, hv, vs, hvs, rfl⟩ := gives_union_iff.1 h
    obtain ⟨us, rfl, hus⟩ := before_variants hvs
    exact .of_before ⟨t :: u :: v :: us, rfl, .union ht hu hv hus⟩
  · obtain ⟨u, v, us, n, rfl, hu, hv, e, w, he, hw, rfl⟩ := gives_typeAlias_iff.1 h
    obtain ⟨us, rfl, hus⟩ := before_expression he
    exact .of_before ⟨t :: u :: v :: (us ++ [w]), by simp, .typeAlias ht hu hv hus hw⟩
  · obtain ⟨hp, rfl⟩ := h
    obtain ⟨header, u, inside, v, rfl, hheader, hu, hin, hv⟩ := before_projection hp
    exact .of_before ⟨t :: (header ++ u :: (inside ++ [v])), by simp,
      .projection ht hheader hu hin hv⟩

/-- A statement that is read stands behind decorators as it may be written, or is skipped. -/
theorem Gives.readAs {t : Token} {s : Statement} (h : Gives (statement t ts) s rest) :
    ∃ ds us, Gives (decorators (t :: ts)) ds us ∧ ReadAs ds s us rest := by
  obtain ⟨ds, us, hds, ⟨rfl, rfl, rfl⟩ | ⟨u, vs, rfl, hd⟩⟩ := gives_statement_iff.1 h
  · exact ⟨ds, [], hds, .ended⟩
  · refine ⟨ds, u :: vs, hds, ?_⟩
    by_cases hu : u.kind = .mark .semicolon
    · obtain ⟨rfl, rfl⟩ := (gives_declaration_semicolon hu).1 hd
      exact .of_before ⟨[u], rfl, .empty hu⟩
    · by_cases hk : ∀ word, u.kind = .name word → Keyword.ofName? word = none
      · obtain ⟨rfl, rfl⟩ := (gives_declaration_skipped hu hk).1 hd
        exact .skipped hu hk
      · simp only [Classical.not_forall] at hk
        obtain ⟨word, hword, hne⟩ := hk
        obtain ⟨k, hk⟩ := Option.ne_none_iff_exists'.1 hne
        exact readAs_keyword hword hk ((gives_declaration_keyword hword hk).1 hd)

theorem Gives.block_ne_nil {ss : List Statement} (h : Gives (block ts) ss rest) : ts ≠ [] := by
  rintro rfl
  rw [block] at h
  exact not_gives_error h

/-- Along the statements of a block. A statement may hold blocks that begin behind its first token;
what is shown of blocks is known of these. -/
@[elab_as_elim]
theorem Gives.block_induct
    {motive : ∀ (ts : List Token) (ss : List Statement) (rest : List Token),
      Gives (block ts) ss rest → Prop}
    (close : ∀ {t : Token} {rest : List Token} (ht : t.kind = .mark .rightBrace),
      motive (t :: rest) [] rest ((gives_block_cons ht).2 ⟨rfl, rfl⟩))
    (cons : ∀ {t : Token} {ts mid rest : List Token} {first : Statement}
      {others : List Statement} (ht : t.kind ≠ .mark .rightBrace)
      (hfirst : Gives (statement t ts) first mid) (hothers : Gives (block mid) others rest),
      (∀ {us rest' : List Token} {ss : List Statement}, us.length ≤ ts.length →
        ∀ h : Gives (block us) ss rest', motive us ss rest' h) →
      motive mid others rest hothers →
      motive (t :: ts) (first :: others) rest
        ((gives_block_of_ne ht).2 ⟨first, mid, hfirst, others, hothers, rfl⟩))
    {ts : List Token} {ss : List Statement} {rest : List Token} (h : Gives (block ts) ss rest) :
    motive ts ss rest h := by
  -- By length: a block inside the first statement is no part of what that statement leaves.
  obtain ⟨l, hl⟩ : ∃ l, ts.length = l := ⟨_, rfl⟩
  induction l using Nat.strongRecOn generalizing ts ss rest with
  | _ l ih =>
    cases ts with
    | nil => exact absurd rfl h.block_ne_nil
    | cons t ts =>
      rw [List.length_cons] at hl
      by_cases ht : t.kind = .mark .rightBrace
      · obtain ⟨rfl, rfl⟩ := (gives_block_cons ht).1 h
        exact close ht
      · obtain ⟨first, mid, hfirst, others, hothers, rfl⟩ := (gives_block_of_ne ht).1 h
        have hlt := hfirst.length_lt
        rw [List.length_cons] at hlt
        exact cons ht hfirst hothers (fun hle h' => ih _ (by omega) h' rfl)
          (ih mid.length (by omega) hothers rfl)

/-- Along the statements of a program. -/
@[elab_as_elim]
theorem statements_induct
    {motive : ∀ (ts : List Token) (ss : List Statement), statements ts = .ok ss → Prop}
    (nil : motive [] [] statements_nil)
    (cons : ∀ {t : Token} {ts mid : List Token} {first : Statement} {others : List Statement}
      (hfirst : Gives (statement t ts) first mid) (hothers : statements mid = .ok others),
      motive mid others hothers →
      motive (t :: ts) (first :: others)
        (statements_cons_iff.2 ⟨first, mid, hfirst, others, hothers, rfl⟩))
    {ts : List Token} {ss : List Statement} (h : statements ts = .ok ss) : motive ts ss h := by
  induction hl : ts.length using Nat.strongRecOn generalizing ts ss with
  | _ l ih =>
    cases ts with
    | nil =>
      cases statements_nil.symm.trans h
      exact nil
    | cons t ts =>
      obtain ⟨first, mid, hfirst, others, hothers, rfl⟩ := statements_cons_iff.1 h
      exact cons hfirst hothers (ih mid.length (hl ▸ hfirst.length_lt) hothers rfl)

end SchemaContract.Grammar
