import SchemaContract.Proofs.Grammar.Braces

/-!
Seams. Inside a declaration there is no place where, with the braces so far in pairs, a statement
has ended and a model begins: outside of blocks there are semicolons between parameters only, and a
parameter is no model; behind a block the declaration goes on with a mark.
-/
namespace SchemaContract.Grammar

variable {ts us vs rest : List Token}

/-- The tokens end as statements do. -/
def EndsStatement (ts : List Token) : Prop :=
  ∃ us t, ts = us ++ [t] ∧ (t.kind = .mark .semicolon ∨ t.kind = .mark .rightBrace)

theorem not_endsStatement_nil : ¬ EndsStatement [] := by
  rintro ⟨us, t, h, -⟩
  simp at h

theorem EndsStatement.of_append (h : EndsStatement (ts ++ us)) (hne : us ≠ []) :
    EndsStatement us := by
  obtain ⟨vs, t, hvs, ht⟩ := h
  rcases List.eq_nil_or_concat us with rfl | ⟨ws, u, rfl⟩
  · exact absurd rfl hne
  · rw [List.concat_eq_append, ← List.append_assoc] at hvs
    obtain ⟨-, hu⟩ := List.append_inj' hvs rfl
    cases hu
    exact ⟨ws, t, by simp, ht⟩

/-- The end of tokens that do not end with their first. -/
theorem EndsStatement.tail {t : Token} (h : EndsStatement (t :: ts))
    (ht : t.kind ∉ [.mark .semicolon, .mark .leftBrace, .mark .rightBrace]) :
    ts ≠ [] ∧ EndsStatement ts := by
  have hne : ts ≠ [] := by
    rintro rfl
    obtain ⟨us, u, hus, hu⟩ := h
    have hsplit : [] ++ [t] = us ++ [u] := hus
    obtain ⟨-, hu'⟩ := List.append_inj' hsplit rfl
    cases hu'
    rcases hu with hu | hu
    · exact ht (by simp [hu])
    · exact ht (by simp [hu])
  exact ⟨hne, @EndsStatement.of_append [t] ts h hne⟩

/-- The tokens begin with a mark, and not with a decorator, if there are any. -/
def GoesOn : List Token → Prop
  | [] => True
  | t :: _ => ∃ m, t.kind = .mark m ∧ m ≠ .atSign

theorem goesOn_cons {t : Token} {m : Mark} (ht : t.kind = .mark m) (hm : m ≠ .atSign)
    (ts : List Token) : GoesOn (t :: ts) :=
  ⟨m, ht, hm⟩

/-- Tokens with their braces in pairs, no semicolon outside of blocks, and behind a block a mark. -/
inductive Solid : List Token → Prop where
  | nil : Solid []
  | cons {t : Token} {ts : List Token} :
      t.kind ∉ [.mark .semicolon, .mark .leftBrace, .mark .rightBrace] → Solid ts →
      Solid (t :: ts)
  | block {t u : Token} {ts us : List Token} :
      t.kind = .mark .leftBrace → Balanced ts → u.kind = .mark .rightBrace → GoesOn us →
      Solid us → Solid (t :: (ts ++ u :: us))

/-- Where a statement could end in solid tokens, they go on. -/
theorem Solid.goesOn (h : Solid (us ++ vs)) (he : opens us = closes us)
    (hs : EndsStatement us) : GoesOn vs := by
  generalize hts : us ++ vs = ts at h
  induction h generalizing us with
  | nil =>
    obtain ⟨rfl, rfl⟩ := List.append_eq_nil_iff.1 hts
    trivial
  | @cons t ts ht _ ih =>
    cases us with
    | nil => exact absurd hs not_endsStatement_nil
    | cons u us =>
      cases hts
      simp only [List.mem_cons, List.not_mem_nil, or_false, not_or] at ht
      have hcounts := counts_cons_of_ne ht.2.1 ht.2.2 us
      exact ih (by omega) (hs.tail (by simp [ht])).2 rfl
  | @block t u ts us' ht hin hu hg _ ih =>
    cases us with
    | nil => exact absurd hs not_endsStatement_nil
    | cons w us =>
      obtain ⟨rfl, hrest⟩ := List.cons.inj hts
      have hopen := counts_cons_open ht us
      -- inside the block more braces are open than closed, so the end is at its last brace or behind
      rcases List.append_eq_append_iff.1 hrest with ⟨as, rfl, -⟩ | ⟨as, rfl, has⟩
      · have := hin.led (List.prefix_append us as)
        omega
      · cases as with
        | nil =>
          have := hin.counts
          rw [List.append_nil] at hopen
          simp only [List.append_nil] at he
          omega
        | cons a as =>
          obtain ⟨rfl, hbehind⟩ := List.cons.inj has
          rcases List.eq_nil_or_concat as with rfl | ⟨bs, b, rfl⟩
          · cases hbehind
            exact hg
          · have hclose := counts_cons_close hu (bs.concat b)
            have hcounts := hin.counts
            simp only [opens_append, closes_append] at hopen
            have hparts : w :: (ts ++ u :: bs.concat b) = (w :: (ts ++ [u])) ++ bs.concat b := by
              simp
            have hend := (hparts ▸ hs).of_append (by simp)
            exact ih (by omega) hend hbehind.symm

theorem Solid.cons_of_mark {t : Token} {m : Mark} (h : Solid ts) (ht : t.kind = .mark m)
    (hm : m ∉ [.semicolon, .leftBrace, .rightBrace]) : Solid (t :: ts) := by
  refine .cons ?_ h
  intro hmem
  simp only [List.mem_cons, List.not_mem_nil, or_false, ht, Token.Kind.mark.injEq] at hmem hm
  exact hm hmem

theorem Solid.cons_of_ne_mark {t : Token} (h : Solid ts) (ht : ∀ m, t.kind ≠ .mark m) :
    Solid (t :: ts) :=
  .cons (by simp [ht]) h

theorem Solid.cons_of_name {t : Token} {n : String} (h : Solid ts) (ht : t.kind = .name n) :
    Solid (t :: ts) :=
  h.cons_of_ne_mark (by simp [ht])

theorem Closing.solid {t : Token} (h : Closing ts) (ht : t.kind = .mark .leftBrace)
    (hg : GoesOn us) (hus : Solid us) : Solid (t :: (ts ++ us)) := by
  obtain ⟨inside, u, rfl, hin, hu⟩ := h
  rw [List.append_assoc]
  exact .block ht hin hu hg hus

/-- A block with nothing behind it. -/
theorem Closing.solid_block {t : Token} (h : Closing ts) (ht : t.kind = .mark .leftBrace) :
    Solid (t :: ts) := by
  have hsolid : Solid (t :: (ts ++ [])) := h.solid ht trivial .nil
  rwa [List.append_nil] at hsolid

theorem WrittenMark.solid {m : Mark} {b : Bool} (h : WrittenMark m b ts)
    (hm : m ∉ [.semicolon, .leftBrace, .rightBrace]) (hus : Solid us) : Solid (ts ++ us) := by
  cases h with
  | absent => exact hus
  | present ht => exact hus.cons_of_mark ht hm

theorem WrittenName.solid {n : String} (h : WrittenName n ts) (hus : Solid us) :
    Solid (ts ++ us) := by
  induction h generalizing us with
  | single ht => exact hus.cons_of_name ht
  | dotted _ ht hu ih =>
    rw [List.append_assoc]
    exact ih ((hus.cons_of_name hu).cons_of_mark ht (by decide))

theorem WrittenPath.solid {e : Expression} (h : WrittenPath e ts) (hus : Solid us) :
    Solid (ts ++ us) := by
  induction h generalizing us with
  | reference ht _ => exact hus.cons_of_name ht
  | member _ ht hu ih =>
    rw [List.append_assoc]
    exact ih ((hus.cons_of_name hu).cons_of_mark ht (by decide))

/-- An option that is left out or begins with a mark goes on, if what follows it does. -/
theorem Written.goesOn_append {φ : Phrase} {m : Mark} (h : Written φ ts)
    (hm : φ.option? = some m) (hne : m ≠ .atSign) (hg : GoesOn us) : GoesOn (ts ++ us) := by
  rcases h.eq_nil_or_option hm with rfl | ⟨t, vs, rfl, ht⟩
  · exact hg
  · exact goesOn_cons ht hne _

/-- Solid tokens stay solid behind a phrase. A phrase that may end with a block needs a mark behind
it; members are told apart. -/
def Phrase.Firm (ts : List Token) : Phrase → Prop
  | members .. => True
  | listing .. | items .. | decorators _ | arguments _ => ∀ us, Solid us → Solid (ts ++ us)
  | _ => ∀ us, GoesOn us → Solid us → Solid (ts ++ us)

theorem Written.firm {φ : Phrase} (h : Written φ ts) : φ.Firm ts := by
  induction h with
  | expression hlead _ hothers ih₁ ih₂ =>
    intro us hg hus
    rw [List.append_assoc, List.append_assoc]
    exact hlead.solid (by decide)
      (ih₁ _ (hothers.goesOn_append rfl (by decide) hg) (ih₂ us hg hus))
  | noUnionOption | noIntersectionOption | noDefault => exact fun _ _ hus => hus
  | noDecorator | noArguments => exact fun _ hus => hus
  | unionOption ht _ hothers ih₁ ih₂ | intersectionOption ht _ hothers ih₁ ih₂ =>
    intro us hg hus
    rw [List.cons_append, List.append_assoc]
    exact (ih₁ _ (hothers.goesOn_append rfl (by decide) hg) (ih₂ us hg hus)).cons_of_mark ht
      (by decide)
  | intersection _ hothers ih₁ ih₂ =>
    intro us hg hus
    rw [List.append_assoc]
    exact ih₁ _ (hothers.goesOn_append rfl (by decide) hg) (ih₂ us hg hus)
  | operand _ ih => exact ih
  | array _ ht hu ih =>
    intro us _ hus
    rw [List.append_assoc]
    exact ih _ (goesOn_cons ht (by decide) _)
      ((hus.cons_of_mark hu (by decide)).cons_of_mark ht (by decide))
  | number ht => exact fun _ _ hus => hus.cons_of_ne_mark (by simp [ht])
  | text ht => exact fun _ _ hus => hus.cons_of_ne_mark (by simp [ht])
  | truth ht => exact fun _ _ hus => hus.cons_of_ne_mark (by simp [ht])
  | keyword ht _ => exact fun _ _ hus => hus.cons_of_name ht
  | path hp => exact fun _ _ hus => hp.solid hus
  | tuple ht _ ih => exact fun us _ hus => (ih us hus).cons_of_mark ht (by decide)
  | model ht hms _ => exact fun us hg hus => Closing.solid hms.braced ht hg hus
  | group ht _ hu ih =>
    intro us _ hus
    rw [List.cons_append, List.append_assoc]
    exact (ih _ (goesOn_cons hu (by decide) _) (hus.cons_of_mark hu (by decide))).cons_of_mark ht
      (by decide)
  | @noListing t place ht =>
    exact fun us hus => hus.cons_of_mark ht (by cases place <;> decide)
  | listing _ ih => exact ih
  | @lastItem t ts place e _ ht ih =>
    intro us hus
    rw [List.append_assoc]
    exact ih _ (goesOn_cons ht (by cases place <;> decide) _)
      (hus.cons_of_mark ht (by cases place <;> decide))
  | item _ ht _ ih₁ ih₂ =>
    intro us hus
    rw [List.append_assoc]
    exact ih₁ _ (goesOn_cons ht (by decide) _) ((ih₂ us hus).cons_of_mark ht (by decide))
  | noMembers | lastMember | members => trivial
  | spread ht _ ih => exact fun us hg hus => (ih us hg hus).cons_of_mark ht (by decide)
  | @property t u mark ts us ds k type optional default? ht hmark hu _ hdefault ih₁ ih₂ =>
    intro vs hg hvs
    have hkey : ∀ m, t.kind ≠ .mark m := fun m => ht ▸ k.token_ne_mark m
    have htype := ih₁ _ (hdefault.goesOn_append rfl (by decide) hg) (ih₂ vs hg hvs)
    have htext : (t :: (mark ++ u :: (ts ++ us))) ++ vs =
        t :: (mark ++ u :: (ts ++ (us ++ vs))) := by simp
    rw [htext]
    exact (hmark.solid (by decide) (htype.cons_of_mark hu (by decide))).cons_of_ne_mark hkey
  | default ht _ ih => exact fun us hg hus => (ih us hg hus).cons_of_mark ht (by decide)
  | @decorator t ns ts us target es ds ht hn _ _ ih₁ ih₂ =>
    intro vs hvs
    have htext : (t :: (ns ++ (ts ++ us))) ++ vs = t :: (ns ++ (ts ++ (us ++ vs))) := by simp
    rw [htext]
    exact (hn.solid (ih₁ _ (ih₂ vs hvs))).cons_of_mark ht (by decide)
  | arguments ht _ ih => exact fun us hus => (ih us hus).cons_of_mark ht (by decide)

theorem Written.solid_expression {e : Expression} (h : Written (.expression e) ts) :
    Solid ts := by
  simpa using h.firm [] trivial .nil

theorem Written.solid_decorators {ds : List Decorator} (h : Written (.decorators ds) ts) :
    Solid ts := by
  simpa using h.firm [] .nil

/-- The tokens begin with the keyword of a model and its name, behind decorators. -/
def BeginsModel (ts : List Token) : Prop :=
  ∃ ds t u us, Gives (decorators ts) ds (t :: u :: us) ∧ t.kind = .name "model" ∧
    ∀ m, u.kind ≠ .mark m

theorem GoesOn.not_beginsModel (h : GoesOn ts) : ¬ BeginsModel ts := by
  rintro ⟨ds, t, u, us, hds, ht, -⟩
  rcases mark?_cases .atSign ts with hm | ⟨v, vs, rfl, hv⟩
  · obtain ⟨-, rfl⟩ := (gives_decorators_of_none hm).1 hds
    obtain ⟨m, hm, -⟩ := h
    exact absurd (ht.symm.trans hm) (by simp)
  · obtain ⟨m, hm, hne⟩ := h
    rw [hv] at hm
    cases hm
    exact hne rfl

/-- Nowhere in the tokens, where the braces so far are in pairs, has a statement ended and does a
model begin. -/
def Seamless (ts rest : List Token) : Prop :=
  ∀ us vs, ts = us ++ vs → vs ≠ [] → opens us = closes us → EndsStatement us →
    ¬ BeginsModel (vs ++ rest)

theorem Solid.seamless (h : Solid ts) (rest : List Token) : Seamless ts rest := by
  rintro us vs rfl hne he hs
  obtain ⟨v, vs, rfl⟩ := List.exists_cons_of_ne_nil hne
  exact GoesOn.not_beginsModel (h.goesOn he hs)

theorem seamless_singleton (t : Token) (rest : List Token) : Seamless [t] rest := by
  intro us vs hts hne _ hs
  cases us with
  | nil => exact absurd hs not_endsStatement_nil
  | cons u us =>
    have hnil : us ++ vs = [] := (List.cons.inj hts).2.symm
    exact absurd (List.append_eq_nil_iff.1 hnil).2 hne

theorem Seamless.append (h : Seamless ts (us ++ rest)) (hb : Balanced ts)
    (hs : EndsStatement ts → ¬ BeginsModel (us ++ rest)) (hus : Seamless us rest) :
    Seamless (ts ++ us) rest := by
  intro vs ws hvs hne he hvs'
  rcases List.append_eq_append_iff.1 hvs with ⟨as, rfl, rfl⟩ | ⟨as, rfl, rfl⟩
  · rcases List.eq_nil_or_concat as with rfl | ⟨bs, b, rfl⟩
    · exact hs (by simpa using hvs')
    · have hcounts := hb.counts
      simp only [opens_append, closes_append] at he
      exact hus _ ws rfl hne (by omega) (hvs'.of_append (by simp))
  · rcases List.eq_nil_or_concat as with rfl | ⟨bs, b, rfl⟩
    · exact hs (by simpa using hvs')
    · have hseam := h vs _ rfl (by simp) he hvs'
      rwa [List.append_assoc]

theorem Seamless.cons {t : Token}
    (ht : t.kind ∉ [.mark .semicolon, .mark .leftBrace, .mark .rightBrace])
    (h : Seamless ts rest) : Seamless (t :: ts) rest := by
  have hb := ht
  simp only [List.mem_cons, List.not_mem_nil, or_false, not_or] at hb
  refine (seamless_singleton t (ts ++ rest)).append (.cons hb.2.1 hb.2.2 .nil) (fun hs => ?_) h
  exact absurd rfl (hs.tail ht).1

theorem Seamless.cons_of_name {t : Token} {n : String} (h : Seamless ts rest)
    (ht : t.kind = .name n) : Seamless (t :: ts) rest :=
  h.cons (by simp [ht])

/-- Solid tokens with a semicolon behind them. -/
theorem Solid.seamless_semicolon {t : Token} (h : Solid ts) (hb : Balanced ts)
    (ht : t.kind = .mark .semicolon) : Seamless (ts ++ [t]) rest :=
  (h.seamless _).append hb (fun _ => (goesOn_cons ht (by decide) _).not_beginsModel)
    (seamless_singleton t rest)

/-- Members do not begin as a model does: a key has no name behind it. -/
theorem not_beginsModel_of_members {ms : List Member}
    (h : Gives (members .parameters ts) ms rest) : ¬ BeginsModel ts := by
  rintro ⟨ds, t, u, us, hds, ht, hu⟩
  rcases mark?_cases MemberList.parameters.close ts with hc | ⟨v, vs, rfl, hv⟩
  · obtain ⟨ds', ts₁, hds', first, ts₂, hfirst, -⟩ := (gives_members_of_none hc).1 h
    obtain ⟨rfl, rfl⟩ := hds.unique hds'
    have hellipsis : mark? .ellipsis (t :: u :: us) = none := mark?_cons_of_ne (by simp [ht])
    obtain ⟨k, ts₁, hk, w, ts₃, hw, hcolon, -⟩ := (gives_member_of_none hellipsis).1 hfirst
    obtain ⟨v, hv, -⟩ := gives_key_iff.1 hk
    cases hv
    rw [(optionalMark_of_none (mark?_cons_of_ne (hu _))).2] at hw
    cases hw
    exact hu _ hcolon
  · have hv' : v.kind = .mark .rightParen := hv
    obtain ⟨-, hus⟩ := (gives_decorators_of_none (mark?_cons_of_ne (by simp [hv']))).1 hds
    cases hus
    exact absurd (hv'.symm.trans ht) (by simp)

theorem seamless_parameters {ms : List Member} (h : Written (.members .parameters ms) ts)
    (rest : List Token) : Seamless ts rest := by
  generalize hφ : Phrase.members .parameters ms = φ at h
  induction h generalizing ms with
  | noMembers => exact seamless_singleton _ rest
  | @lastMember t ts us place ds m hds hm ht =>
    cases hφ
    have hclose : Solid [t] := Solid.nil.cons_of_mark ht (by decide)
    exact (hds.firm _ (hm.firm _ (goesOn_cons ht (by decide) _) hclose)).seamless rest
  | @members t ts us vs place ds m ms' hds hm ht hms _ _ ih =>
    cases hφ
    have hsolid : Solid (ts ++ us) := by
      simpa using hds.firm _ (hm.firm [] trivial .nil)
    have hts : ts ++ (us ++ t :: vs) = (ts ++ us) ++ ([t] ++ vs) := by simp
    have hgoes : GoesOn ([t] ++ vs ++ rest) := by
      rcases ht with ht | ht
      · exact goesOn_cons ht (by decide) _
      · exact goesOn_cons ht (by decide) _
    -- behind the separator a statement could have ended, but a parameter begins
    have hmore : Seamless ([t] ++ vs) rest := by
      refine (seamless_singleton t _).append (Balanced.nil.cons_of_separator ht) (fun _ => ?_)
        (ih rfl)
      exact not_beginsModel_of_members (gives_written_members hms rest)
    rw [hts]
    exact (hsolid.seamless _).append (hds.balanced_decorators.append hm.braced)
      (fun _ => hgoes.not_beginsModel) hmore
  | _ => cases hφ

theorem WrittenModel.seamless {target? : Option Expression} {ms : List Member}
    (h : WrittenModel target? ms ts) (rest : List Token) : Seamless ts rest := by
  cases h with
  | body ht hms => exact (Closing.solid_block hms.braced ht).seamless rest
  | target ht he hu =>
    exact (he.solid_expression.seamless_semicolon he.balanced_expression hu).cons_of_name ht
  | both ht he hu hms =>
    have hbody := Closing.solid_block hms.braced hu
    exact ((he.firm _ (goesOn_cons hu (by decide) _) hbody).seamless rest).cons_of_name ht

theorem WrittenSignature.seamless {o : Operation} {t : Token} (h : WrittenSignature o ts)
    (ht : t.kind = .mark .semicolon) (rest : List Token) : Seamless (ts ++ [t]) rest := by
  cases h with
  | @signature u v w ps us n ds ms e hu hv hps hw he =>
    have htype : Solid (w :: us) := he.solid_expression.cons_of_mark hw (by decide)
    have hresult : Seamless ((w :: us) ++ [t]) rest :=
      htype.seamless_semicolon (he.balanced_expression.cons_of_mark hw (by decide)) ht
    have hgoes : GoesOn ((w :: us) ++ [t] ++ rest) := goesOn_cons hw (by decide) _
    have hparameters := (seamless_parameters hps _).append hps.braced
      (fun _ => hgoes.not_beginsModel) hresult
    have hts : (u :: v :: (ps ++ w :: us)) ++ [t] = u :: v :: (ps ++ ((w :: us) ++ [t])) := by
      simp
    rw [hts]
    exact (hparameters.cons (by simp [hv])).cons_of_name hu

/-- Only a projection may hold a place in its header where a model seems to begin. -/
theorem WrittenDeclaration.seamless {ds : List Decorator} {s : Statement}
    (h : WrittenDeclaration ds s ts) (hs : s ≠ .projection) (rest : List Token) :
    Seamless ts rest := by
  have hname {n : String} {ns : List Token} (hn : WrittenName n ns) {t : Token}
      (ht : t.kind = .mark .semicolon) : Seamless (ns ++ [t]) rest := by
    have hsolid := hn.solid .nil
    rw [List.append_nil] at hsolid
    exact hsolid.seamless_semicolon hn.balanced ht
  cases h with
  | @empty t ht => exact seamless_singleton t rest
  | @importPath t u v path ht hu hv =>
    have hpath : Seamless [u, v] rest := (seamless_singleton v rest).cons (by simp [hu])
    exact hpath.cons_of_name ht
  | usingName ht hn hu => exact (hname hn hu).cons_of_name ht
  | emptyScope ht hn hu => exact (hname hn hu).cons_of_name ht
  | model ht hu hm => exact ((hm.seamless rest).cons_of_name hu).cons_of_name ht
  | enumeration ht hu hv hcs =>
    have hlist := hcs.closing fun _ _ => WrittenCase.balanced
    exact (((hlist.solid_block hv).seamless rest).cons_of_name hu).cons_of_name ht
  | interface ht hu hv hos =>
    have hlist := hos.closing fun _ _ => WrittenOperation.balanced
    exact (((hlist.solid_block hv).seamless rest).cons_of_name hu).cons_of_name ht
  | operation ht _ hw hu => exact (hw.seamless hu rest).cons_of_name ht
  | union ht hu hv hvs =>
    have hlist := hvs.closing fun _ _ => WrittenVariant.balanced
    exact (((hlist.solid_block hv).seamless rest).cons_of_name hu).cons_of_name ht
  | typeAlias ht hu hv he hw =>
    have htype := @Solid.seamless_semicolon _ rest _ he.solid_expression he.balanced_expression hw
    exact ((htype.cons (by simp [hv])).cons_of_name hu).cons_of_name ht
  | projection => exact absurd rfl hs

/-- Decorators do not end as a statement does: a name may stand behind them. -/
theorem not_endsStatement_decorators {ds : List Decorator} (h : Written (.decorators ds) ts) :
    ¬ EndsStatement ts := by
  intro hs
  -- any name will do, since no name goes on where a statement could have ended
  have hname : Solid [(⟨.name "", 0⟩ : Token)] := Solid.nil.cons_of_name rfl
  obtain ⟨m, hm, -⟩ := (h.firm _ hname).goesOn h.balanced_decorators.counts hs
  cases hm

end SchemaContract.Grammar
