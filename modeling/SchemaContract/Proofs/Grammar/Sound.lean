import SchemaContract.Proofs.Grammar.Complete

/-!
Soundness of the rules of expressions: what a rule finds is written in front of the rest, by the
grammar whose phrases are known to be read. So tokens that were read can be taken apart as they were
written.
-/
namespace SchemaContract.Grammar

variable {ts rest : List Token}

/-- Tokens with some property stand in front of the rest. -/
def Before (P : List Token → Prop) (ts rest : List Token) : Prop :=
  ∃ used, ts = used ++ rest ∧ P used

theorem before_dottedRest {start n : String} {us : List Token} (hs : WrittenName start us)
    (h : Gives (dottedRest start ts) n rest) :
    ∃ vs, ts = vs ++ rest ∧ WrittenName n (us ++ vs) := by
  induction hl : ts.length using Nat.strongRecOn generalizing ts start us with
  | _ l ih =>
    rcases mark?_cases .dot ts with hd | ⟨t, vs, rfl, ht⟩
    · obtain ⟨rfl, rfl⟩ := (gives_dottedRest_of_none hd).1 h
      exact ⟨[], rfl, by rwa [List.append_nil]⟩
    · obtain ⟨u, vs, part, rfl, hu, hr⟩ := (gives_dottedRest_cons ht).1 h
      simp only [List.length_cons] at hl
      obtain ⟨ws, rfl, hw⟩ := ih _ (by omega) (.dotted hs ht hu) hr rfl
      exact ⟨t :: u :: ws, rfl, by simpa using hw⟩

theorem before_dottedName {n : String} (h : Gives (dottedName ts) n rest) :
    Before (WrittenName n) ts rest := by
  obtain ⟨t, us, start, rfl, ht, hr⟩ := gives_dottedName_iff.1 h
  obtain ⟨vs, rfl, hw⟩ := before_dottedRest (.single ht) hr
  exact ⟨t :: vs, rfl, hw⟩

theorem before_memberChain {base e : Expression} {us : List Token} (hs : WrittenPath base us)
    (h : Gives (memberChain base ts) e rest) :
    ∃ vs, ts = vs ++ rest ∧ WrittenPath e (us ++ vs) := by
  induction hl : ts.length using Nat.strongRecOn generalizing ts base us with
  | _ l ih =>
    rcases mark?_cases .dot ts with hd | ⟨t, vs, rfl, ht⟩
    · obtain ⟨rfl, rfl⟩ := (gives_memberChain_of_none hd).1 h
      exact ⟨[], rfl, by rwa [List.append_nil]⟩
    · obtain ⟨u, vs, part, rfl, hu, hr⟩ := (gives_memberChain_cons ht).1 h
      simp only [List.length_cons] at hl
      obtain ⟨ws, rfl, hw⟩ := ih _ (by omega) (.member hs ht hu) hr rfl
      exact ⟨t :: u :: ws, rfl, by simpa using hw⟩

theorem before_named {t : Token} {n : String} {e : Expression} (ht : t.kind = .name n)
    (h : Gives (named n ts) e rest) : Before (Written (.primary e)) (t :: ts) rest := by
  cases hk : keywordType? n with
  | some keyword =>
    obtain ⟨rfl, rfl⟩ := (gives_named_of_some hk).1 h
    exact ⟨[t], rfl, .keyword ht hk⟩
  | none =>
    have hm := (gives_reference_iff.1 ((gives_named_of_none hk).1 h)).1
    obtain ⟨vs, rfl, hw⟩ := before_memberChain (.reference ht (keywordType?_eq_none_iff.1 hk)) hm
    exact ⟨t :: vs, rfl, .path hw⟩

theorem before_arrayBrackets {e : Expression} {us : List Token} (hs : Written (.operand e) us)
    (ts : List Token) :
    ∃ vs, ts = vs ++ (arrayBrackets e ts).rest ∧
      Written (.operand (arrayBrackets e ts).value) (us ++ vs) := by
  fun_induction arrayBrackets e ts generalizing us with
  | case1 e t u ts hm ih =>
    obtain ⟨vs, hts, hw⟩ := ih (.array hs hm.1 hm.2)
    refine ⟨t :: u :: vs, ?_, by simpa using hw⟩
    exact congrArg (fun ts => t :: u :: ts) hts
  | case2 => exact ⟨[], rfl, by rwa [List.append_nil]⟩
  | case3 => exact ⟨[], rfl, by rwa [List.append_nil]⟩

theorem before_optionalMark (m : Mark) (ts : List Token) :
    Before (WrittenMark m (optionalMark m ts).value) ts (optionalMark m ts).rest := by
  rcases mark?_cases m ts with hm | ⟨t, us, rfl, ht⟩
  · obtain ⟨hv, hr⟩ := optionalMark_of_none hm
    rw [hv, hr]
    exact ⟨[], rfl, .absent⟩
  · obtain ⟨hv, hr⟩ := @optionalMark_of_eq us m t ht
    rw [hv, hr]
    exact ⟨[t], rfl, .present ht⟩

/-- What is derived is written in front of the rest. The induction is on the derivation. -/
theorem Derives.written {φ : Phrase} (h : Derives φ ts rest) : Before (Written φ) ts rest := by
  induction h with
  | @expression ts _ _ _ _ _ _ ih₁ ih₂ =>
    obtain ⟨lead, hts, hlead⟩ := before_optionalMark .pipe ts
    obtain ⟨us, hus, hfirst⟩ := ih₁
    obtain ⟨vs, rfl, hothers⟩ := ih₂
    refine ⟨lead ++ (us ++ vs), ?_, .expression hlead hfirst hothers⟩
    rw [hts, hus, List.append_assoc, List.append_assoc]
  | noUnionOption _ => exact ⟨[], rfl, .noUnionOption⟩
  | unionOption ht _ _ ih₁ ih₂ =>
    obtain ⟨us, rfl, hoption⟩ := ih₁
    obtain ⟨vs, rfl, hothers⟩ := ih₂
    exact ⟨_ :: (us ++ vs), by simp, .unionOption ht hoption hothers⟩
  | intersection _ _ ih₁ ih₂ =>
    obtain ⟨us, rfl, hfirst⟩ := ih₁
    obtain ⟨vs, rfl, hothers⟩ := ih₂
    exact ⟨us ++ vs, by simp, .intersection hfirst hothers⟩
  | noIntersectionOption _ => exact ⟨[], rfl, .noIntersectionOption⟩
  | intersectionOption ht _ _ ih₁ ih₂ =>
    obtain ⟨us, rfl, hoption⟩ := ih₁
    obtain ⟨vs, rfl, hothers⟩ := ih₂
    exact ⟨_ :: (us ++ vs), by simp, .intersectionOption ht hoption hothers⟩
  | @operand _ mid _ _ ih =>
    obtain ⟨us, rfl, helement⟩ := ih
    obtain ⟨vs, hvs, harray⟩ := before_arrayBrackets (.operand helement) mid
    refine ⟨us ++ vs, ?_, harray⟩
    rw [List.append_assoc, ← hvs]
  | number ht => exact ⟨[_], rfl, .number ht⟩
  | text ht => exact ⟨[_], rfl, .text ht⟩
  | truth ht => exact ⟨[_], rfl, .truth ht⟩
  | named ht hn => exact before_named ht hn
  | tuple ht _ ih =>
    obtain ⟨us, rfl, helements⟩ := ih
    exact ⟨_ :: us, rfl, .tuple ht helements⟩
  | model ht _ ih =>
    obtain ⟨us, rfl, hmembers⟩ := ih
    exact ⟨_ :: us, rfl, .model ht hmembers⟩
  | group ht _ hu ih =>
    obtain ⟨us, rfl, hinside⟩ := ih
    exact ⟨_ :: (us ++ [_]), by simp, .group ht hinside hu⟩
  | noListing ht => exact ⟨[_], rfl, .noListing ht⟩
  | listing _ _ ih =>
    obtain ⟨us, rfl, hitems⟩ := ih
    exact ⟨us, rfl, .listing hitems⟩
  | lastItem _ _ ht ih =>
    obtain ⟨us, rfl, hitem⟩ := ih
    exact ⟨us ++ [_], by simp, .lastItem hitem ht⟩
  | item _ ht _ ih₁ ih₂ =>
    obtain ⟨us, rfl, hitem⟩ := ih₁
    obtain ⟨vs, rfl, hothers⟩ := ih₂
    exact ⟨us ++ _ :: vs, by simp, .item hitem ht hothers⟩
  | noMembers ht => exact ⟨[_], rfl, .noMembers ht⟩
  | members _ _ _ hs hothers ih₁ ih₂ ih₃ =>
    obtain ⟨us, rfl, hds⟩ := ih₁
    obtain ⟨vs, rfl, hm⟩ := ih₂
    obtain ⟨t, ws, rfl, ⟨ht, rfl⟩ | ⟨_, ht, rfl⟩⟩ := gives_separator_iff.1 hs
    · obtain ⟨xs, rfl, hms⟩ := ih₃
      exact ⟨us ++ (vs ++ t :: xs), by simp, .members hds hm ht hms⟩
    · -- the closing mark was only looked at, so no more members are read
      obtain ⟨rfl, rfl⟩ := (gives_members_cons ht).1 hothers.given
      exact ⟨us ++ (vs ++ [t]), by simp, .lastMember hds hm ht⟩
  | spread ht _ ih =>
    obtain ⟨us, rfl, htarget⟩ := ih
    exact ⟨_ :: us, rfl, .spread ht htarget⟩
  | @property _ u ts _ _ _ _ _ _ _ ht hu hc _ _ ih₁ ih₂ =>
    obtain ⟨mark, hts, hmark⟩ := before_optionalMark .question ts
    obtain ⟨us, rfl, htype⟩ := ih₁
    obtain ⟨vs, rfl, hdefault⟩ := ih₂
    refine ⟨_ :: (mark ++ u :: (us ++ vs)), ?_, .property ht hmark hc htype hdefault⟩
    simp [hts.trans (congrArg (mark ++ ·) hu)]
  | noDefault _ => exact ⟨[], rfl, .noDefault⟩
  | default ht _ ih =>
    obtain ⟨us, rfl, hvalue⟩ := ih
    exact ⟨_ :: us, rfl, .default ht hvalue⟩
  | noDecorator _ => exact ⟨[], rfl, .noDecorator⟩
  | decorator ht hn _ _ ih₁ ih₂ =>
    obtain ⟨ns, rfl, hname⟩ := before_dottedName hn
    obtain ⟨us, rfl, harguments⟩ := ih₁
    obtain ⟨vs, rfl, hothers⟩ := ih₂
    exact ⟨_ :: (ns ++ (us ++ vs)), by simp, .decorator ht hname harguments hothers⟩
  | noArguments _ => exact ⟨[], rfl, .noArguments⟩
  | arguments ht _ ih =>
    obtain ⟨us, rfl, hlisting⟩ := ih
    exact ⟨_ :: us, rfl, .arguments ht hlisting⟩

theorem Phrase.Given.written {φ : Phrase} (h : φ.Given ts rest) : Before (Written φ) ts rest :=
  h.derives.written

end SchemaContract.Grammar
