import SchemaContract.Proofs.Grammar.Blocks
import SchemaContract.Proofs.Grammar.Local

/-!
Cutting off what comes later. What is read in front of more tokens is read without them too, as long
as the rest that it leaves holds them all.
-/
namespace SchemaContract.Grammar

variable {ts rest : List Token}

/-- The tokens that a part is read from, where it leaves at least the later ones. -/
theorem append_of_length_le {us vs zs : List Token} (h : us ++ vs = ts ++ zs)
    (hle : zs.length ≤ vs.length) : ∃ ws, vs = ws ++ zs ∧ ts = us ++ ws := by
  rcases List.append_eq_append_iff.1 h with ⟨ws, rfl, hvs⟩ | ⟨ws, hus, hzs⟩
  · exact ⟨ws, hvs, rfl⟩
  · have hws : ws = [] := by
      rw [hzs, List.length_append] at hle
      exact List.length_eq_zero_iff.1 (by omega)
    subst hws
    exact ⟨[], by simpa using hzs.symm, by simpa using hus.symm⟩

theorem Recovers.suffix (h : Recovers ts rest) : rest <:+ ts := by
  induction h with
  | ended => exact List.suffix_rfl
  | closing => exact List.suffix_rfl
  | semicolon => exact List.suffix_cons _ _
  | @block t u inside ts => exact ⟨t :: (inside ++ [u]), by simp⟩
  | unclosed => exact List.nil_suffix
  | cons _ _ ih => exact ih.trans (List.suffix_cons _ _)

theorem skipStatement_suffix (t : Token) (ts : List Token) : skipStatement t ts <:+ t :: ts := by
  unfold skipStatement
  split
  · exact List.suffix_cons t ts
  · exact (recovers (t :: ts)).suffix

theorem behindBlock_of_append {depth : Nat} {zs : List Token}
    (h : behindBlock depth (ts ++ zs) = some (rest ++ zs)) : behindBlock depth ts = some rest := by
  induction ts generalizing depth with
  | nil =>
    have hlt := behindBlock_length_lt h
    simp only [List.nil_append, List.length_append] at hlt
    omega
  | cons t ts ih =>
    rw [List.cons_append] at h
    by_cases hopen : t.kind = .mark .leftBrace
    · rw [behindBlock_open hopen] at h ⊢
      exact ih h
    · by_cases hclose : t.kind = .mark .rightBrace
      · cases depth with
        | zero =>
          rw [behindBlock_close hclose, Option.some.injEq] at h ⊢
          exact List.append_cancel_right h
        | succ depth =>
          rw [behindBlock_close_succ hclose] at h ⊢
          exact ih h
      · rw [behindBlock_of_ne hopen hclose] at h ⊢
        exact ih h

theorem recovered_of_append {zs : List Token} (h : recovered (ts ++ zs) = rest ++ zs) :
    recovered ts = rest := by
  induction ts with
  | nil =>
    have hle := recovered_length_le zs
    rw [← List.nil_append zs, h, List.nil_append, List.length_append] at hle
    have hrest : rest = [] := List.length_eq_zero_iff.1 (by omega)
    rw [hrest, recovered]
  | cons t ts ih =>
    rw [List.cons_append, recovered] at h
    rw [recovered]
    split
    · next hs =>
      rw [if_pos hs] at h
      exact List.append_cancel_right h
    next hs =>
    rw [if_neg hs] at h
    split
    · next hl =>
      rw [if_pos hl] at h
      cases hb : behindBlock 0 (ts ++ zs) with
      | none =>
        rw [hb] at h
        obtain ⟨rfl, rfl⟩ := List.append_eq_nil_iff.1 h.symm
        rw [List.append_nil] at hb
        rw [hb]
        rfl
      | some behind =>
        rw [hb, Option.getD_some] at h
        rw [h] at hb
        rw [behindBlock_of_append hb]
        rfl
    next hl =>
    rw [if_neg hl] at h
    split
    · next hr =>
      rw [if_pos hr, ← List.cons_append] at h
      exact List.append_cancel_right h
    · next hr =>
      rw [if_neg hr] at h
      exact ih h

theorem skipStatement_of_append {t : Token} {zs : List Token}
    (h : skipStatement t (ts ++ zs) = rest ++ zs) : skipStatement t ts = rest := by
  unfold skipStatement at h ⊢
  split
  · next ht =>
    rw [if_pos ht] at h
    exact List.append_cancel_right h
  · next ht =>
    rw [if_neg ht, ← List.cons_append] at h
    exact recovered_of_append h

theorem mark?_of_append {m : Mark} {zs : List Token} (h : mark? m (ts ++ zs) = none)
    (hne : ts ≠ []) : mark? m ts = none := by
  obtain ⟨t, us, rfl⟩ := List.exists_cons_of_ne_nil hne
  exact mark?_cons_of_ne (mark?_cons_eq_none_iff.1 h)

/-- A name with dots does not stop in front of a dot. -/
theorem mark?_dot_of_dottedName {n : String} (h : Gives (dottedName ts) n rest) :
    mark? .dot rest = none := by
  obtain ⟨t, us, start, rfl, -, hr⟩ := gives_dottedName_iff.1 h
  clear h
  induction hl : us.length using Nat.strongRecOn generalizing us start with
  | _ l ih =>
    rcases mark?_cases .dot us with hd | ⟨u, us, rfl, hu⟩
    · obtain ⟨-, rfl⟩ := (gives_dottedRest_of_none hd).1 hr
      exact hd
    · obtain ⟨v, us, part, rfl, -, hr⟩ := (gives_dottedRest_cons hu).1 hr
      simp only [List.length_cons] at hl
      exact ih us.length (by omega) us _ hr rfl

theorem gives_dottedName_of_append {n : String} {zs : List Token}
    (h : Gives (dottedName (ts ++ zs)) n (rest ++ zs)) (hne : rest ≠ []) :
    Gives (dottedName ts) n rest := by
  obtain ⟨ns, hns, hname⟩ := before_dottedName h
  rw [← List.append_assoc] at hns
  rw [List.append_cancel_right hns]
  exact hname.gives_dottedName (mark?_of_append (mark?_dot_of_dottedName h) hne)

/-- Arguments end with a mark of their own. -/
theorem arguments_of_append {es : List Expression} {zs : List Token}
    (h : Derives (.arguments es) (ts ++ zs) (rest ++ zs)) (hne : rest ≠ []) :
    Derives (.arguments es) ts rest := by
  generalize hts : ts ++ zs = ts' at h
  generalize hrest : rest ++ zs = rest' at h
  cases h with
  | noArguments hm =>
    subst hts
    rw [List.append_cancel_right hrest]
    exact .noArguments (mark?_of_append hm (List.append_cancel_right hrest ▸ hne))
  | arguments ht hes =>
    obtain ⟨us, rfl, hus⟩ := hes.written
    subst hrest
    rw [← List.append_assoc, ← List.cons_append] at hts
    rw [List.append_cancel_right hts]
    exact .arguments ht (hus.derives (by simp [Phrase.Stops, Phrase.barred]))

theorem decorators_of_append {ds : List Decorator} {zs : List Token}
    (h : Derives (.decorators ds) (ts ++ zs) (rest ++ zs)) (hne : rest ≠ []) :
    Derives (.decorators ds) ts rest := by
  induction ds generalizing ts with
  | nil =>
    generalize hts : ts ++ zs = ts' at h
    generalize hrest : rest ++ zs = rest' at h
    cases h with
    | noDecorator hm =>
      subst hts
      rw [List.append_cancel_right hrest]
      exact .noDecorator (mark?_of_append hm (List.append_cancel_right hrest ▸ hne))
  | cons d ds ih =>
    generalize hts : ts ++ zs = ts' at h
    cases h with
    | @decorator t us us₁ us₂ _ target es ds ht hn hes hds =>
      obtain ⟨vs₂, hvs₂, -⟩ := hds.written
      rw [← List.append_assoc] at hvs₂
      subst hvs₂
      have hds' := ih hds
      obtain ⟨vs₁, hvs₁, -⟩ := hes.written
      rw [← List.append_assoc] at hvs₁
      subst hvs₁
      have hne₂ : vs₂ ++ rest ≠ [] := by simp [hne]
      have hes' := arguments_of_append hes hne₂
      obtain ⟨vs, hvs, -⟩ := before_dottedName hn
      rw [← List.append_assoc] at hvs
      subst hvs
      rw [← List.cons_append] at hts
      rw [List.append_cancel_right hts]
      exact .decorator ht (gives_dottedName_of_append hn (by simp [hne])) hes' hds'

/-- What is left of the tokens that a statement is read from is the last part of them. -/
theorem Gives.statement_suffix {t : Token} {s : Statement} (h : Gives (statement t ts) s rest) :
    rest <:+ t :: ts := by
  obtain ⟨ds, us, hds, hread⟩ := h.readAs
  obtain ⟨vs, hvs, -⟩ := before_decorators hds
  refine List.IsSuffix.trans ?_ ⟨vs, hvs.symm⟩
  cases hread with
  | declaration => exact List.suffix_append _ _
  | @scope t u ns us _ n ss _ _ _ hss =>
    obtain ⟨inside, v, rfl, -⟩ := block_counts hss
    exact ⟨t :: (ns ++ u :: (inside ++ [v])), by simp⟩
  | ended => exact List.suffix_rfl
  | @skipped u us => exact skipStatement_suffix u us

theorem statement_of_append_of {t : Token} {s : Statement} {zs : List Token}
    (hblock : ∀ {us rest : List Token} {ss : List Statement}, us.length < ts.length →
      Gives (block (us ++ zs)) ss (rest ++ zs) → Gives (block us) ss rest)
    (h : Gives (statement t (ts ++ zs)) s (rest ++ zs)) : Gives (statement t ts) s rest := by
  obtain ⟨ds, us, hds, hread⟩ := h.readAs
  obtain ⟨vs, hvs, hwritten⟩ := before_decorators hds
  rw [← List.cons_append] at hvs
  generalize hr : rest ++ zs = rest' at hread
  cases hread with
  | @declaration us _ _ hw =>
    subst hr
    rw [← List.append_assoc, ← List.append_assoc] at hvs
    obtain ⟨-, ds', u, ws, hd, hs⟩ := readsStatement_declaration hwritten hw rest
    rw [← List.append_cancel_right hvs] at hd
    exact gives_statement_iff.2 ⟨ds', _, hd, .inr ⟨u, ws, rfl, hs⟩⟩
  | @scope t' u ns us _ n ss ht' hn hu hss =>
    subst hr
    have hlt := hss.length_lt
    rw [List.length_append] at hlt
    -- the block leaves all of `zs`, so its head stands in `ts`
    have hsplit : (vs ++ t' :: (ns ++ [u])) ++ us = (t :: ts) ++ zs := by
      rw [hvs]
      simp
    obtain ⟨us, rfl, hts⟩ := append_of_length_le hsplit (by omega)
    have hlength := congrArg List.length hts
    simp only [List.length_cons, List.length_append] at hlength
    have hd := gives_written_decorators hwritten (beginsWith_cons_name ht' (ns ++ u :: us))
    have hts' : t :: ts = vs ++ t' :: (ns ++ u :: us) := by simpa using hts
    rw [← hts'] at hd
    refine gives_statement_iff.2 ⟨ds, _, hd, .inr ⟨t', _, rfl, ?_⟩⟩
    refine (gives_declaration_keyword ht' rfl).2 (gives_scope_iff.2 ⟨n, u :: us, ?_, ?_⟩)
    · exact hn.gives_dottedName (mark?_cons_of_ne (by simp [hu]))
    · exact .inl ⟨u, us, ss, rfl, hu, hblock (by omega) hss, rfl⟩
  | ended =>
    obtain ⟨rfl, rfl⟩ := List.append_eq_nil_iff.1 hr
    rwa [List.append_nil] at h
  | @skipped u us hu hk =>
    have hlt := skipStatement_length_le u us
    rw [← hr, List.length_append] at hlt
    have hsplit : (vs ++ [u]) ++ us = (t :: ts) ++ zs := by
      rw [hvs]
      simp
    obtain ⟨us, rfl, -⟩ := append_of_length_le hsplit (by omega)
    have hskip := skipStatement_of_append hr.symm
    have hderives : Derives (.decorators ds) ((t :: ts) ++ zs) ((u :: us) ++ zs) :=
      Phrase.Given.derives (φ := .decorators ds) hds
    have hd := (decorators_of_append hderives (List.cons_ne_nil u us)).given
    refine gives_statement_iff.2 ⟨ds, _, hd, .inr ⟨u, us, rfl, ?_⟩⟩
    exact (gives_declaration_skipped hu hk).2 ⟨rfl, hskip⟩

theorem gives_block_of_append {ss : List Statement} {zs : List Token}
    (h : Gives (block (ts ++ zs)) ss (rest ++ zs)) : Gives (block ts) ss rest := by
  generalize hts : ts ++ zs = ts' at h
  generalize hrest : rest ++ zs = rest' at h
  induction h using Gives.block_induct generalizing ts rest with
  | @close t rest' ht =>
    have hclose : ts ++ zs = (t :: rest) ++ zs := by rw [hts, ← hrest, List.cons_append]
    rw [List.append_cancel_right hclose]
    exact (gives_block_cons ht).2 ⟨rfl, rfl⟩
  | @cons t us mid rest' first others ht hfirst hothers inner ih =>
    subst hrest
    cases ts with
    | nil =>
      have hlt := hfirst.length_lt
      have hlt' := hothers.length_lt
      rw [← hts, List.nil_append] at hlt
      rw [List.length_append] at hlt'
      omega
    | cons t' ts =>
      rw [List.cons_append] at hts
      obtain ⟨rfl, rfl⟩ := List.cons.inj hts
      -- the block leaves all of `zs`, so its first statement ends in `ts`
      obtain ⟨used, hused⟩ := hfirst.statement_suffix
      have hlt := hothers.length_lt
      rw [List.length_append] at hlt
      rw [← List.cons_append] at hused
      obtain ⟨mid, rfl, -⟩ := append_of_length_le hused (by omega)
      have hfirst' : Gives (statement t' ts) first mid := by
        refine statement_of_append_of (fun hlt' hss => inner ?_ hss rfl rfl) hfirst
        rw [List.length_append, List.length_append]
        omega
      exact (gives_block_of_ne ht).2 ⟨first, mid, hfirst', others, ih rfl rfl, rfl⟩

theorem Gives.statement_of_append {t : Token} {s : Statement} {zs : List Token}
    (h : Gives (statement t (ts ++ zs)) s (rest ++ zs)) : Gives (statement t ts) s rest :=
  statement_of_append_of (fun _ hss => gives_block_of_append hss) h

end SchemaContract.Grammar
