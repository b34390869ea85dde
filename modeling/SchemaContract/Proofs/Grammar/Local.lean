import SchemaContract.Proofs.Grammar.SoundProgram

/-!
What is found does not depend on what comes later: more tokens behind the rest change nothing but
the rest. A rule looks at the first token of its rest, and at two where these may be a pair of
brackets; a statement that is skipped goes on where the tokens end.
-/
namespace SchemaContract.Grammar

variable {ts rest : List Token}

/-- Tokens that show why a phrase ended before them. An opening bracket alone does not: it is looked
at together with the token behind it. -/
def Settled (rest : List Token) : Prop :=
  ∃ t us, rest = t :: us ∧ (us = [] → t.kind ≠ .mark .leftBracket)

theorem settled_cons {t : Token} {m : Mark} (ht : t.kind = .mark m) (hm : m ≠ .leftBracket)
    (us : List Token) : Settled (t :: us) := by
  refine ⟨t, us, rfl, fun _ he => hm ?_⟩
  rw [ht] at he
  cases he
  rfl

theorem Settled.ne_nil (h : Settled rest) : rest ≠ [] := by
  obtain ⟨t, us, rfl, -⟩ := h
  exact List.cons_ne_nil t us

theorem Settled.append_left (h : Settled rest) (us : List Token) : Settled (us ++ rest) := by
  cases us with
  | nil => exact h
  | cons u us =>
    refine ⟨u, us ++ rest, rfl, fun hn => ?_⟩
    exact absurd (List.append_eq_nil_iff.1 hn).2 h.ne_nil

theorem mark?_append_of_none {m : Mark} (h : mark? m ts = none) (hne : ts ≠ [])
    (zs : List Token) : mark? m (ts ++ zs) = none := by
  cases ts with
  | nil => exact absurd rfl hne
  | cons t ts => exact mark?_cons_of_ne (mark?_cons_eq_none_iff.1 h)

theorem optionalMark_append (m : Mark) (hne : ts ≠ []) (zs : List Token) :
    (optionalMark m (ts ++ zs)).value = (optionalMark m ts).value ∧
      (optionalMark m (ts ++ zs)).rest = (optionalMark m ts).rest ++ zs := by
  rcases mark?_cases m ts with hm | ⟨t, us, rfl, ht⟩
  · obtain ⟨hv, hr⟩ := optionalMark_of_none hm
    rw [hv, hr]
    exact optionalMark_of_none (mark?_append_of_none hm hne zs)
  · obtain ⟨hv, hr⟩ := @optionalMark_of_eq us m t ht
    rw [hv, hr]
    exact @optionalMark_of_eq (us ++ zs) m t ht

theorem gives_dottedRest_append {start n : String} (h : Gives (dottedRest start ts) n rest)
    (hs : Settled rest) (zs : List Token) :
    Gives (dottedRest start (ts ++ zs)) n (rest ++ zs) := by
  induction hl : ts.length using Nat.strongRecOn generalizing ts start with
  | _ l ih =>
    rcases mark?_cases .dot ts with hd | ⟨t, us, rfl, ht⟩
    · obtain ⟨rfl, rfl⟩ := (gives_dottedRest_of_none hd).1 h
      exact (gives_dottedRest_of_none (mark?_append_of_none hd hs.ne_nil zs)).2 ⟨rfl, rfl⟩
    · obtain ⟨u, us, part, rfl, hu, hr⟩ := (gives_dottedRest_cons ht).1 h
      rw [List.length_cons, List.length_cons] at hl
      have hr' := ih us.length (by omega) hr rfl
      exact (gives_dottedRest_cons ht).2 ⟨u, us ++ zs, part, rfl, hu, hr'⟩

theorem gives_dottedName_append {n : String} (h : Gives (dottedName ts) n rest)
    (hs : Settled rest) (zs : List Token) : Gives (dottedName (ts ++ zs)) n (rest ++ zs) := by
  obtain ⟨t, us, start, rfl, ht, hr⟩ := gives_dottedName_iff.1 h
  exact gives_dottedName_iff.2 ⟨t, us ++ zs, start, rfl, ht, gives_dottedRest_append hr hs zs⟩

theorem gives_memberChain_append {base e : Expression} (h : Gives (memberChain base ts) e rest)
    (hs : Settled rest) (zs : List Token) :
    Gives (memberChain base (ts ++ zs)) e (rest ++ zs) := by
  induction hl : ts.length using Nat.strongRecOn generalizing ts base with
  | _ l ih =>
    rcases mark?_cases .dot ts with hd | ⟨t, us, rfl, ht⟩
    · obtain ⟨rfl, rfl⟩ := (gives_memberChain_of_none hd).1 h
      exact (gives_memberChain_of_none (mark?_append_of_none hd hs.ne_nil zs)).2 ⟨rfl, rfl⟩
    · obtain ⟨u, us, part, rfl, hu, hr⟩ := (gives_memberChain_cons ht).1 h
      rw [List.length_cons, List.length_cons] at hl
      have hr' := ih us.length (by omega) hr rfl
      exact (gives_memberChain_cons ht).2 ⟨u, us ++ zs, part, rfl, hu, hr'⟩

theorem gives_named_append {n : String} {e : Expression} (h : Gives (named n ts) e rest)
    (hs : Settled rest) (zs : List Token) : Gives (named n (ts ++ zs)) e (rest ++ zs) := by
  cases hk : keywordType? n with
  | some keyword =>
    obtain ⟨rfl, rfl⟩ := (gives_named_of_some hk).1 h
    exact (gives_named_of_some hk).2 ⟨rfl, rfl⟩
  | none =>
    obtain ⟨hm, hl⟩ := gives_reference_iff.1 ((gives_named_of_none hk).1 h)
    exact (gives_named_of_none hk).2 (gives_reference_iff.2
      ⟨gives_memberChain_append hm hs zs, mark?_append_of_none hl hs.ne_nil zs⟩)

theorem arrayBrackets_append {e : Expression} (hs : Settled (arrayBrackets e ts).rest)
    (zs : List Token) :
    (arrayBrackets e (ts ++ zs)).value = (arrayBrackets e ts).value ∧
      (arrayBrackets e (ts ++ zs)).rest = (arrayBrackets e ts).rest ++ zs := by
  fun_induction arrayBrackets e ts with
  | case1 e t u ts hm ih =>
    obtain ⟨hv, hr⟩ := arrayBrackets_cons (e := e) (ts ++ zs) hm.1 hm.2
    obtain ⟨hv', hr'⟩ := ih hs
    exact ⟨hv.trans hv', hr.trans hr'⟩
  | case2 e t u ts hm =>
    rw [List.cons_append, List.cons_append, arrayBrackets, if_neg hm]
    exact ⟨rfl, rfl⟩
  | case3 e ts hshort =>
    obtain ⟨t, us, rfl, ht⟩ := hs
    cases us with
    | nil => exact arrayBrackets_of_none (mark?_cons_of_ne (ht rfl))
    | cons u us => exact absurd rfl (hshort t u us)

/-- The rest of the brackets behind an operand is a rest of what stands there. -/
theorem settled_of_arrayBrackets {e : Expression} (hs : Settled (arrayBrackets e ts).rest) :
    Settled ts := by
  obtain ⟨us, hus⟩ := arrayBrackets_suffix e ts
  rw [← hus]
  exact hs.append_left us

theorem Derives.settled {φ : Phrase} (h : Derives φ ts rest) (hs : Settled rest) :
    Settled ts := by
  obtain ⟨used, rfl, -⟩ := h.written
  exact hs.append_left used

theorem gives_separator_append {close : Mark} {what : Expectation}
    (h : Gives (separator close what ts) () rest) (zs : List Token) :
    Gives (separator close what (ts ++ zs)) () (rest ++ zs) := by
  obtain ⟨t, us, rfl, ⟨ht, rfl⟩ | ⟨hn, ht, rfl⟩⟩ := gives_separator_iff.1 h
  · exact gives_separator_iff.2 ⟨t, us ++ zs, rfl, .inl ⟨ht, rfl⟩⟩
  · exact gives_separator_iff.2 ⟨t, us ++ zs, rfl, .inr ⟨hn, ht, rfl⟩⟩

theorem settled_of_separator {place : MemberList} {what : Expectation}
    (h : Gives (separator place.close what ts) () rest) : Settled ts := by
  obtain ⟨t, us, rfl, ⟨ht | ht, -⟩ | ⟨-, ht, -⟩⟩ := gives_separator_iff.1 h
  · exact settled_cons ht (by decide) us
  · exact settled_cons ht (by decide) us
  · exact settled_cons ht (by cases place <;> decide) us

theorem Derives.append {φ : Phrase} (h : Derives φ ts rest) (hs : Settled rest)
    (zs : List Token) : Derives φ (ts ++ zs) (rest ++ zs) := by
  induction h with
  | @expression ts mid rest first others h₁ h₂ ih₁ ih₂ =>
    -- what shows why the whole ends shows it for each part: the rest of a part begins with the next
    have hmid := h₂.settled hs
    have hts := (Derives.expression h₁ h₂).settled hs
    refine .expression ?_ (ih₂ hs)
    rw [(optionalMark_append .pipe hts.ne_nil zs).2]
    exact ih₁ hmid
  | noUnionOption hm => exact .noUnionOption (mark?_append_of_none hm hs.ne_nil zs)
  | unionOption ht _ h₂ ih₁ ih₂ => exact .unionOption ht (ih₁ (h₂.settled hs)) (ih₂ hs)
  | intersection _ h₂ ih₁ ih₂ => exact .intersection (ih₁ (h₂.settled hs)) (ih₂ hs)
  | noIntersectionOption hm => exact .noIntersectionOption (mark?_append_of_none hm hs.ne_nil zs)
  | intersectionOption ht _ h₂ ih₁ ih₂ =>
    exact .intersectionOption ht (ih₁ (h₂.settled hs)) (ih₂ hs)
  | operand _ ih =>
    obtain ⟨hv, hr⟩ := arrayBrackets_append hs zs
    rw [← hv, ← hr]
    exact .operand (ih (settled_of_arrayBrackets hs))
  | number ht => exact .number ht
  | text ht => exact .text ht
  | truth ht => exact .truth ht
  | named ht hn => exact .named ht (gives_named_append hn hs zs)
  | tuple ht _ ih => exact .tuple ht (ih hs)
  | model ht _ ih => exact .model ht (ih hs)
  | group ht _ hu ih => exact .group ht (ih (settled_cons hu (by decide) _)) hu
  | noListing ht => exact .noListing ht
  | listing hc h ih => exact .listing (mark?_append_of_none hc (h.settled hs).ne_nil zs) (ih hs)
  | @lastItem t _ rest place _ _ hc ht ih =>
    have hs' := settled_cons ht (by cases place <;> decide) rest
    exact .lastItem (ih hs') (mark?_append_of_none hc hs'.ne_nil zs) ht
  | item _ ht _ ih₁ ih₂ => exact .item (ih₁ (settled_cons ht (by decide) _)) ht (ih₂ hs)
  | noMembers ht => exact .noMembers ht
  | members hc h₁ h₂ hsep _ ih₁ ih₂ ih₃ =>
    have hs₂ := settled_of_separator hsep
    have hs₁ := h₂.settled hs₂
    exact .members (mark?_append_of_none hc (h₁.settled hs₁).ne_nil zs) (ih₁ hs₁) (ih₂ hs₂)
      (gives_separator_append hsep zs) (ih₃ hs)
  | spread ht _ ih => exact .spread ht (ih hs)
  | @property t u ts ts₁ ts₂ rest ds k type default? ht hu hc h₁ h₂ ih₁ ih₂ =>
    have hs₂ := h₂.settled hs
    have hne : ts ≠ [] := by
      rintro rfl
      cases hu
    obtain ⟨hv, hr⟩ := optionalMark_append .question hne zs
    rw [← hv]
    exact .property ht (hr.trans (congrArg (· ++ zs) hu)) hc (ih₁ hs₂) (ih₂ hs)
  | noDefault hm => exact .noDefault (mark?_append_of_none hm hs.ne_nil zs)
  | default ht _ ih => exact .default ht (ih hs)
  | noDecorator hm => exact .noDecorator (mark?_append_of_none hm hs.ne_nil zs)
  | decorator ht hn h₁ h₂ ih₁ ih₂ =>
    have hs₂ := h₂.settled hs
    exact .decorator ht (gives_dottedName_append hn (h₁.settled hs₂) zs) (ih₁ hs₂) (ih₂ hs)
  | noArguments hm => exact .noArguments (mark?_append_of_none hm hs.ne_nil zs)
  | arguments ht _ ih => exact .arguments ht (ih hs)

theorem gives_decorators_append {ds : List Decorator} (h : Gives (decorators ts) ds rest)
    (hs : Settled rest) (zs : List Token) : Gives (decorators (ts ++ zs)) ds (rest ++ zs) :=
  ((Phrase.Given.derives (φ := .decorators ds) h).append hs zs).given

theorem behindBlock_append {depth : Nat} (h : behindBlock depth ts = some rest)
    (zs : List Token) : behindBlock depth (ts ++ zs) = some (rest ++ zs) := by
  fun_induction behindBlock depth ts with
  | case1 => cases h
  | case2 depth t ts ht ih => rw [List.cons_append, behindBlock_open ht, ih h]
  | case3 t ts _ ht =>
    cases h
    exact behindBlock_close ht _
  | case4 t ts _ ht depth ih => rw [List.cons_append, behindBlock_close_succ ht, ih h]
  | case5 depth t ts hl hr ih => rw [List.cons_append, behindBlock_of_ne hl hr, ih h]

theorem recovered_append (h : recovered ts ≠ []) (zs : List Token) :
    recovered (ts ++ zs) = recovered ts ++ zs := by
  fun_induction recovered ts with
  | case1 => exact absurd rfl h
  | case2 t ts ht => rw [List.cons_append, recovered, if_pos ht]
  | case3 t ts hs ht =>
    rw [List.cons_append, recovered, if_neg hs, if_pos ht]
    cases hb : behindBlock 0 ts with
    | none =>
      rw [hb] at h
      exact absurd rfl h
    | some rest =>
      rw [behindBlock_append hb]
      rfl
  | case4 t ts hs hl ht =>
    rw [List.cons_append, recovered, if_neg hs, if_neg hl, if_pos ht]
  | case5 t ts hs hl hr ih =>
    rw [List.cons_append, recovered, if_neg hs, if_neg hl, if_neg hr, ih h]

theorem skipStatement_append {t : Token} (h : skipStatement t ts ≠ []) (zs : List Token) :
    skipStatement t (ts ++ zs) = skipStatement t ts ++ zs := by
  unfold skipStatement at h ⊢
  split
  · rfl
  · next ht =>
    rw [if_neg ht] at h
    rw [← List.cons_append]
    exact recovered_append h zs

/-- A statement that is read is read whatever is appended, unless it is one that is skipped up to
the end of the tokens. -/
theorem statement_append_of {t : Token} {s : Statement} {zs : List Token}
    (hblock : ∀ {us rest : List Token} {ss : List Statement}, us.length ≤ ts.length →
      Gives (block us) ss rest → Gives (block (us ++ zs)) ss (rest ++ zs))
    (h : Gives (statement t ts) s rest) (hr : s = .invalid → rest ≠ []) :
    Gives (statement t (ts ++ zs)) s (rest ++ zs) := by
  obtain ⟨ds, us, hds, hread⟩ := h.readAs
  cases hread with
  | @declaration us _ _ hw =>
    obtain ⟨vs, hvs, hwritten⟩ := before_decorators hds
    obtain ⟨-, ds', u, ws, hd, hs⟩ := readsStatement_declaration hwritten hw (rest ++ zs)
    have hts : vs ++ us ++ (rest ++ zs) = t :: (ts ++ zs) := by
      rw [← List.cons_append, hvs]
      simp
    rw [hts] at hd
    exact gives_statement_iff.2 ⟨ds', _, hd, .inr ⟨u, ws, rfl, hs⟩⟩
  | @scope t' u ns us _ n ss ht' hn hu hss =>
    have hlt := hds.length_lt
    simp only [List.length_cons, List.length_append] at hlt
    have hd := gives_decorators_append hds ⟨t', _, rfl, by simp [ht']⟩ zs
    have happ : t' :: (ns ++ u :: us) ++ zs = t' :: (ns ++ u :: (us ++ zs)) := by simp
    rw [happ] at hd
    refine gives_statement_iff.2 ⟨ds, _, hd, .inr ⟨t', _, rfl, ?_⟩⟩
    refine (gives_declaration_keyword ht' rfl).2 (gives_scope_iff.2 ⟨n, u :: (us ++ zs), ?_, ?_⟩)
    · exact hn.gives_dottedName (mark?_cons_of_ne (by simp [hu]))
    · exact .inl ⟨u, us ++ zs, ss, rfl, hu, hblock (by omega) hss, rfl⟩
  | ended => exact absurd rfl (hr rfl)
  | @skipped u us hu hk =>
    have hskip := skipStatement_append (hr rfl) zs
    have hs : Settled (u :: us) := by
      -- behind the last token nothing would be left of what is skipped
      refine ⟨u, us, rfl, fun hus _ => hr rfl ?_⟩
      have hlen := skipStatement_length_le u us
      rw [hus] at hlen ⊢
      exact List.length_eq_zero_iff.1 (Nat.le_zero.1 hlen)
    have hd := gives_decorators_append hds hs zs
    refine gives_statement_iff.2 ⟨ds, _, hd, .inr ⟨u, us ++ zs, rfl, ?_⟩⟩
    exact (gives_declaration_skipped hu hk).2 ⟨rfl, hskip⟩

/-- Inside a block every statement has the closing brace behind it, so none is cut off. -/
theorem gives_block_append {ss : List Statement} (h : Gives (block ts) ss rest)
    (zs : List Token) : Gives (block (ts ++ zs)) ss (rest ++ zs) := by
  induction h using Gives.block_induct with
  | close ht => exact (gives_block_cons ht).2 ⟨rfl, rfl⟩
  | cons ht hfirst hothers inner ih =>
    have hfirst' := statement_append_of inner hfirst fun _ => hothers.block_ne_nil
    exact (gives_block_of_ne ht).2 ⟨_, _, hfirst', _, ih, rfl⟩

theorem Gives.statement_append {t : Token} {s : Statement} (h : Gives (statement t ts) s rest)
    (hr : s = .invalid → rest ≠ []) (zs : List Token) :
    Gives (statement t (ts ++ zs)) s (rest ++ zs) :=
  statement_append_of (fun _ hss => gives_block_append hss zs) h hr

/-- The statements behind the first are read from what it leaves. -/
theorem statements_of_gives {t : Token} {s : Statement} (h : Gives (statement t ts) s rest) :
    statements (t :: ts) = (statements rest).map (s :: ·) := by
  obtain ⟨hlt, hs⟩ := h
  rw [statements, hs]
  cases hr : statements rest <;> simp [bind, Except.bind, Except.map, hr]

/-- Statements that are read stay the first statements whatever is appended, unless the last of
them is one that is skipped; then the appended ones are read as if they stood alone. -/
theorem statements_append {ss : List Statement} (h : statements ts = .ok ss)
    (hl : ss.getLast? ≠ some .invalid) (zs : List Token) :
    statements (ts ++ zs) = (statements zs).map (ss ++ ·) := by
  induction h using statements_induct with
  | nil =>
    rw [List.nil_append]
    cases statements zs <;> rfl
  | @cons t ts mid first others hfirst hothers ih =>
    -- a statement that is skipped up to the end is the last one
    have hmid : first = .invalid → mid ≠ [] := by
      rintro rfl rfl
      cases statements_nil.symm.trans hothers
      exact hl rfl
    have hl' : others.getLast? ≠ some .invalid := by
      intro he
      exact hl (by rw [List.getLast?_cons, he]; rfl)
    rw [List.cons_append, statements_of_gives (hfirst.statement_append hmid zs), ih hl']
    cases statements zs <;> rfl

end SchemaContract.Grammar
