import SchemaContract.Proofs.Grammar.Cut
import SchemaContract.Proofs.Grammar.Seams

/-!
A model that follows. Where the braces of some tokens are in pairs and the tokens end as statements
do, no statement among them runs on into a model behind them, but for one kind: a projection behind
whose keyword no brace opens. It takes the first block of the model for its own.
-/
namespace SchemaContract.Grammar

variable {ts us vs zs rest : List Token}

theorem endsStatement_append {t : Token}
    (ht : t.kind = .mark .semicolon ∨ t.kind = .mark .rightBrace) (ts : List Token) :
    EndsStatement (ts ++ [t]) :=
  ⟨ts, t, rfl, ht⟩

theorem EndsStatement.append_left (h : EndsStatement us) (ts : List Token) :
    EndsStatement (ts ++ us) := by
  obtain ⟨vs, t, rfl, ht⟩ := h
  exact ⟨ts ++ vs, t, by simp, ht⟩

theorem EndsStatement.cons (h : EndsStatement ts) (t : Token) : EndsStatement (t :: ts) :=
  h.append_left [t]

theorem EndsStatement.ne_nil (h : EndsStatement ts) : ts ≠ [] := by
  rintro rfl
  exact not_endsStatement_nil h

theorem Closing.endsStatement (h : Closing ts) : EndsStatement ts := by
  obtain ⟨inside, t, rfl, -, ht⟩ := h
  exact endsStatement_append (.inr ht) inside

theorem WrittenModel.endsStatement {target? : Option Expression} {ms : List Member}
    (h : WrittenModel target? ms ts) : EndsStatement ts := by
  cases h with
  | body _ hms => exact (Closing.endsStatement hms.braced).cons _
  | @target t u ts e ht he hu => exact endsStatement_append (.inl hu) (t :: ts)
  | both _ _ _ hms => exact (((Closing.endsStatement hms.braced).cons _).append_left _).cons _

theorem WrittenDeclaration.endsStatement {ds : List Decorator} {s : Statement}
    (h : WrittenDeclaration ds s ts) : EndsStatement ts := by
  have hlist {α : Type} {element : α → List Token → Prop} {as : List α} {us : List Token}
      (hus : WrittenList element as us) (helement : ∀ a ts, element a ts → Balanced ts)
      (t u v : Token) : EndsStatement (t :: u :: v :: us) :=
    ((((hus.closing helement).endsStatement).cons v).cons u).cons t
  cases h with
  | empty ht => exact endsStatement_append (.inl ht) []
  | @importPath t u v path _ _ hv => exact endsStatement_append (.inl hv) [t, u]
  | @usingName t u ns n _ _ hu => exact endsStatement_append (.inl hu) (t :: ns)
  | @emptyScope t u ns n _ _ hu => exact endsStatement_append (.inl hu) (t :: ns)
  | model _ _ hm => exact (hm.endsStatement.cons _).cons _
  | enumeration _ _ _ hcs => exact hlist hcs (fun _ _ => WrittenCase.balanced) _ _ _
  | interface _ _ _ hos => exact hlist hos (fun _ _ => WrittenOperation.balanced) _ _ _
  | @operation t u us o _ _ _ hu => exact endsStatement_append (.inl hu) (t :: us)
  | union _ _ _ hvs => exact hlist hvs (fun _ _ => WrittenVariant.balanced) _ _ _
  | @typeAlias t u v w us n e _ _ _ _ hw => exact endsStatement_append (.inl hw) (t :: u :: v :: us)
  | @projection t u v header us _ _ _ _ hv =>
    exact ((endsStatement_append (.inr hv) (u :: us)).append_left header).cons t

/-- What is skipped ends as a statement does, or a closing brace stands behind it. -/
theorem Recovers.ends (h : Recovers (us ++ rest) rest) (hr : rest ≠ []) :
    EndsStatement us ∨ ∃ t vs, rest = t :: vs ∧ t.kind = .mark .rightBrace := by
  generalize hts : us ++ rest = ts at h
  induction h generalizing us with
  | ended => exact absurd rfl hr
  | @closing t ts ht => exact .inr ⟨t, ts, rfl, ht⟩
  | @semicolon t ts ht =>
    have hus : us ++ ts = [t] ++ ts := hts
    rw [List.append_cancel_right hus]
    exact .inl (endsStatement_append (.inl ht) [])
  | @block t u inside ts ht _ hu =>
    have hus : us ++ ts = (t :: (inside ++ [u])) ++ ts := by simpa using hts
    rw [List.append_cancel_right hus]
    exact .inl (endsStatement_append (.inr hu) (t :: inside))
  | unclosed => exact absurd rfl hr
  | @cons t ts rest ht h ih =>
    obtain ⟨vs, rfl⟩ := h.suffix
    have hus : us ++ rest = (t :: vs) ++ rest := hts
    rw [List.append_cancel_right hus]
    exact (ih hr rfl).imp_left (·.cons t)

/-- A statement that others follow ends as statements do, or a closing brace that is in no pair
stands behind it. No more braces open in it than close. -/
theorem Gives.ends {t : Token} {s : Statement} (h : Gives (statement t ts) s rest)
    (hr : rest ≠ []) :
    ∃ used, t :: ts = used ++ rest ∧ opens used ≤ closes used ∧
      (EndsStatement used ∨ ∃ t vs, rest = t :: vs ∧ t.kind = .mark .rightBrace) := by
  obtain ⟨used, hused, hle, -⟩ := statement_spans h hr
  refine ⟨used, hused, hle, ?_⟩
  obtain ⟨ds, us, hds, hread⟩ := h.readAs
  obtain ⟨vs, hvs, -⟩ := before_decorators hds
  rw [hused] at hvs
  cases hread with
  | @declaration ws _ _ hw =>
    rw [← List.append_assoc] at hvs
    rw [List.append_cancel_right hvs]
    exact .inl (hw.endsStatement.append_left vs)
  | @scope t' u ns us _ n ss _ _ _ hss =>
    obtain ⟨inside, v, rfl, hv, -⟩ := block_counts hss
    have hsplit : used ++ rest = (vs ++ t' :: (ns ++ u :: (inside ++ [v]))) ++ rest := by
      simpa using hvs
    rw [List.append_cancel_right hsplit]
    have hblock := (endsStatement_append (.inr hv) (u :: inside)).append_left ns
    exact .inl ((hblock.cons t').append_left vs)
  | ended => exact absurd rfl hr
  | @skipped u us hu hk =>
    obtain ⟨ws, hws⟩ := skipStatement_suffix u us
    rw [← hws, ← List.append_assoc] at hvs
    rw [List.append_cancel_right hvs]
    unfold skipStatement at hws hr ⊢
    split
    · next hclose =>
      rw [if_pos hclose] at hws
      have hus : ws ++ us = [u] ++ us := hws
      rw [List.append_cancel_right hus]
      exact .inl ((endsStatement_append (.inr hclose) []).append_left vs)
    · next hclose =>
      rw [if_neg hclose] at hws hr
      have hrecovers : Recovers (ws ++ recovered (u :: us)) (recovered (u :: us)) := by
        rw [hws]
        exact recovers (u :: us)
      exact (hrecovers.ends hr).imp_left (·.append_left vs)

theorem closes_le_of_behindBlock {depth : Nat} (h : behindBlock depth ts = none)
    (hp : us <+: ts) : closes us ≤ opens us + depth := by
  induction ts generalizing depth us with
  | nil =>
    rw [List.prefix_nil.1 hp]
    exact Nat.zero_le _
  | cons t ts ih =>
    rcases List.prefix_cons_iff.1 hp with rfl | ⟨vs, rfl, hvs⟩
    · exact Nat.zero_le _
    by_cases hopen : t.kind = .mark .leftBrace
    · rw [behindBlock_open hopen] at h
      have hcounts := counts_cons_open hopen vs
      have := ih h hvs
      omega
    · by_cases hclose : t.kind = .mark .rightBrace
      · cases depth with
        | zero =>
          rw [behindBlock_close hclose] at h
          cases h
        | succ depth =>
          rw [behindBlock_close_succ hclose] at h
          have hcounts := counts_cons_close hclose vs
          have := ih h hvs
          omega
      · rw [behindBlock_of_ne hopen hclose] at h
        have hcounts := counts_cons_of_ne hopen hclose vs
        have := ih h hvs
        omega

theorem Recovers.stops (h : Recovers (us ++ vs) rest) (he : opens us = closes us)
    (hs : EndsStatement us) : ∃ ws, rest = ws ++ vs := by
  obtain ⟨t, us, rfl⟩ := List.exists_cons_of_ne_nil hs.ne_nil
  generalize hts : (t :: us) ++ vs = ts at h
  induction h generalizing t us with
  | ended => cases hts
  | closing => exact ⟨t :: us, hts.symm⟩
  | semicolon =>
    cases hts
    exact ⟨us, rfl⟩
  | @block t' u inside ts ht hin hu =>
    obtain ⟨rfl, hrest⟩ := List.cons.inj hts
    have hopen := counts_cons_open ht us
    rcases List.append_eq_append_iff.1 hrest with ⟨as, rfl, -⟩ | ⟨as, rfl, has⟩
    · have := hin.led (List.prefix_append us as)
      omega
    · cases as with
      | nil =>
        have := hin.counts
        simp only [List.append_nil] at hopen he
        omega
      | cons a as => exact ⟨as, (List.cons.inj has).2⟩
  | unclosed ht hnone =>
    cases hts
    have hopen := counts_cons_open ht us
    have := closes_le_of_behindBlock hnone (List.prefix_append us vs)
    omega
  | cons ht _ ih =>
    cases hts
    simp only [List.mem_cons, List.not_mem_nil, or_false, not_or] at ht
    obtain ⟨hne, hs'⟩ := hs.tail (by simp [ht])
    have hcounts := counts_cons_of_ne ht.2.1 ht.2.2 us
    obtain ⟨u, us, rfl⟩ := List.exists_cons_of_ne_nil hne
    exact ih u us (by omega) hs' rfl

/-- Reading statements from the tokens comes to a projection behind whose keyword no brace opens. -/
inductive OpenProjection : List Token → Prop where
  | here {ds : List Decorator} {t : Token} {ts header : List Token} :
      Gives (decorators ts) ds (t :: header) → t.kind = .name "projection" →
      (∀ w ∈ header, w.kind ≠ .mark .leftBrace) → OpenProjection ts
  | behind {t : Token} {ts mid : List Token} {s : Statement} :
      Gives (statement t ts) s mid → OpenProjection mid → OpenProjection (t :: ts)

theorem not_openProjection_nil : ¬ OpenProjection [] := by
  intro h
  cases h with
  | here hds => exact absurd hds.length_lt (by simp)

theorem openProjection_cons_iff {t : Token} {s : Statement}
    (h : Gives (statement t ts) s rest) : OpenProjection (t :: ts) ↔ OpenProjection rest := by
  refine ⟨fun ho => ?_, .behind h⟩
  cases ho with
  | here hds hu hheader =>
    obtain ⟨-, hd⟩ := h.behind_decorators hds
    obtain ⟨hprojection, -⟩ := (gives_declaration_keyword hu rfl).1 hd
    obtain ⟨header', v, inside, w, rfl, -, hv, -⟩ := before_projection hprojection
    exact absurd hv (hheader v (by simp))
  | behind hs hmid => rwa [(h.unique hs).2]

theorem seamless_statement {ds : List Decorator} (hds : Written (.decorators ds) ts)
    (h : Seamless us rest) : Seamless (ts ++ us) rest :=
  (hds.solid_decorators.seamless _).append hds.balanced_decorators
    (fun hs => absurd hs (not_endsStatement_decorators hds)) h

/-- A projection that runs on does so in its header. The tokens behind it are those of its block. -/
theorem projection_crossing {t u v : Token} {as header inside : List Token}
    (hp : Paired (us ++ t :: as)) (hus : opens us = closes us) (ht : t.kind = .name "projection")
    (hheader : ∀ w ∈ header, w.kind ≠ .mark .leftBrace) (hu : u.kind = .mark .leftBrace)
    (hin : Balanced inside) (hzs : zs ≠ [])
    (h : as ++ zs = header ++ u :: (inside ++ [v])) :
    ∃ bs, header = as ++ bs ∧ zs = bs ++ u :: (inside ++ [v]) := by
  rcases List.append_eq_append_iff.1 h with ⟨bs, hbs, rfl⟩ | ⟨bs, rfl, hbs⟩
  · exact ⟨bs, hbs, rfl⟩
  cases bs with
  | nil => exact ⟨[], by simp, by simpa using hbs.symm⟩
  | cons b bs =>
    obtain ⟨rfl, hclose⟩ := List.cons.inj hbs
    have hbs : bs <+: inside := by
      rcases List.prefix_concat_iff.1 ⟨zs, hclose.symm⟩ with rfl | hbs
      · exact absurd (List.append_right_eq_self.1 hclose.symm) hzs
      · exact hbs
    have hopens : opens header = 0 := List.countP_eq_zero.2 (by simpa using hheader)
    have hled := hp.led (us ++ t :: header) ⟨u :: bs, by simp⟩
    have hequal := hp.equal
    have hinside := hin.led hbs
    have hword (ws : List Token) := counts_cons_of_ne (t := t) (by simp [ht]) (by simp [ht]) ws
    have hopen := counts_cons_open hu bs
    simp only [opens_append, closes_append, (hword _).1, (hword _).2, hopen.1, hopen.2]
      at hled hequal
    omega

/-- What a projection takes of the tokens behind it has its braces in pairs. -/
theorem projection_counts {u v : Token} {header inside : List Token}
    (hheader : ∀ w ∈ header, w.kind ≠ .mark .leftBrace) (hu : u.kind = .mark .leftBrace)
    (hin : Balanced inside) (hv : v.kind = .mark .rightBrace)
    (hled : closes header ≤ opens header) :
    opens (header ++ u :: (inside ++ [v])) = closes (header ++ u :: (inside ++ [v])) := by
  have hopens : opens header = 0 := List.countP_eq_zero.2 (by simpa using hheader)
  have hblock := (Balanced.block hu hin hv .nil).counts
  rw [opens_append, closes_append, hblock]
  omega

/-- Decorators do not hold all the tokens in front of a model. -/
theorem EndsStatement.behind_decorators {ds : List Decorator} (hs : EndsStatement ts)
    (he : opens ts = closes ts) (hz : BeginsModel zs) (hds : Written (.decorators ds) vs)
    (h : ts ++ zs = vs ++ us) : ∃ a as, ts = vs ++ a :: as ∧ us = a :: (as ++ zs) := by
  rcases List.append_eq_append_iff.1 h with ⟨as, rfl, rfl⟩ | ⟨as, rfl, rfl⟩
  · cases as with
    | nil =>
      rw [List.append_nil] at hds
      exact absurd hs (not_endsStatement_decorators hds)
    | cons a as =>
      exact absurd hz (hds.solid_decorators.seamless us ts _ rfl (List.cons_ne_nil a as) he hs)
  · cases as with
    | nil =>
      rw [List.append_nil] at hs
      exact absurd hs (not_endsStatement_decorators hds)
    | cons a as => exact ⟨a, as, rfl, rfl⟩

theorem skipStatement_stops {t : Token} (he : opens (t :: ts) = closes (t :: ts))
    (hs : EndsStatement (t :: ts)) (zs : List Token) :
    ∃ ws, skipStatement t (ts ++ zs) = ws ++ zs := by
  unfold skipStatement
  split
  · exact ⟨ts, rfl⟩
  · have hrecovers : Recovers ((t :: ts) ++ zs) (recovered (t :: (ts ++ zs))) := recovers _
    exact hrecovers.stops he hs

/-- A scope in which no more braces close than open has them in pairs, so no model begins inside. -/
theorem scope_crossing {t u v : Token} {n : String} {ns inside : List Token}
    {ss : List Statement} (ht : t.kind = .name "namespace") (hn : WrittenName n ns)
    (hu : u.kind = .mark .leftBrace) (hss : Gives (block (inside ++ v :: rest)) ss rest)
    (hv : v.kind = .mark .rightBrace)
    (hle : closes (t :: (ns ++ u :: (inside ++ [v]))) ≤ opens (t :: (ns ++ u :: (inside ++ [v])))) :
    Seamless (t :: (ns ++ u :: (inside ++ [v]))) rest := by
  obtain ⟨inside', v', hinside, -, hle', hkeeps, hbalanced⟩ := block_counts hss
  obtain ⟨rfl, -⟩ := List.append_inj' hinside rfl
  have hword := counts_cons_of_ne (t := t) (by simp [ht]) (by simp [ht])
    (ns ++ u :: (inside ++ [v]))
  have hopen := counts_cons_open hu (inside ++ [v])
  have hclose := counts_cons_close hv []
  have hname := hn.balanced.counts
  simp only [hword.1, hword.2, opens_append, closes_append, hopen.1, hopen.2, hclose.1, hclose.2,
    opens_nil, closes_nil] at hle
  have hin := hbalanced (hkeeps (by omega))
  exact ((hn.solid (@Solid.block u v inside [] hu hin hv trivial .nil)).cons_of_name ht).seamless
    rest

/-- A statement that the tokens begin with is read as if they stood alone, or it is a projection
that takes a part of the model behind them. -/
theorem Gives.stops {t : Token} {s : Statement} (h : Gives (statement t (ts ++ zs)) s rest)
    (hp : Paired (t :: ts)) (hs : EndsStatement (t :: ts)) (hz : BeginsModel zs)
    (hled : ∀ us, us <+: zs → closes us ≤ opens us) :
    (∃ mid, rest = mid ++ zs ∧ Gives (statement t ts) s mid) ∨
      s = .projection ∧ OpenProjection (t :: ts) ∧
        ∃ us, zs = us ++ rest ∧ opens us = closes us ∧ EndsStatement us := by
  obtain ⟨used, hused⟩ := h.statement_suffix
  rw [← List.cons_append] at hused
  -- The statement ends in front of the model, or takes tokens of it.
  rcases Nat.lt_or_ge rest.length zs.length with hlt | hge
  case inr =>
    obtain ⟨mid, rfl, -⟩ := append_of_length_le hused hge
    exact .inl ⟨mid, rfl, h.statement_of_append⟩
  obtain ⟨beyond, rfl, -⟩ := append_of_length_le hused.symm (Nat.le_of_lt hlt)
  have hbeyond : beyond ≠ [] := by
    rintro rfl
    simp at hlt
  obtain ⟨ds, us, hds, hread⟩ := h.readAs
  obtain ⟨vs, hvs, hwritten⟩ := before_decorators hds
  rw [← List.cons_append] at hvs
  have hequal := hwritten.balanced_decorators.counts
  -- The tokens would end inside the statement, but no model begins there.
  have hseam {ws : List Token} (hws : Seamless ws rest) : (t :: ts) ++ beyond ≠ vs ++ ws := by
    intro he
    exact seamless_statement hwritten hws (t :: ts) beyond he.symm hbeyond hp.equal hs hz
  cases hread with
  | @declaration ws _ _ hw =>
    by_cases hprojection : s = .projection
    · subst hprojection
      cases hw with
      | @projection t' u v header inside ht' hheader hu hin hv =>
        obtain ⟨a, as, hts, hus⟩ := hs.behind_decorators hp.equal hz hwritten hvs
        obtain ⟨rfl, hbehind⟩ := List.cons.inj hus
        rw [← List.append_assoc] at hbehind
        rw [hts] at hp
        obtain ⟨bs, rfl, rfl⟩ := projection_crossing hp hequal ht' hheader hu hin hbeyond
          (List.append_cancel_right hbehind).symm
        have has : ∀ w ∈ as, w.kind ≠ .mark .leftBrace :=
          fun w hw => hheader w (List.mem_append_left bs hw)
        have hbs : ∀ w ∈ bs, w.kind ≠ .mark .leftBrace :=
          fun w hw => hheader w (List.mem_append_right as hw)
        refine .inr ⟨rfl, ?_, _, rfl, projection_counts hbs hu hin hv ?_, ?_⟩
        · have hd := gives_written_decorators hwritten (beginsWith_cons_name ht' as)
          rw [← hts] at hd
          exact .here hd ht' has
        · exact hled bs ⟨u :: (inside ++ [v]) ++ rest, by simp⟩
        · exact (endsStatement_append (.inr hv) (u :: inside)).append_left bs
    · rw [← List.append_assoc, ← List.append_assoc] at hvs
      have hsplit := List.append_cancel_right hvs
      exact absurd hsplit (hseam (hw.seamless hprojection rest))
  | @scope t' u ns us _ n ss ht' hn hu hss =>
    obtain ⟨inside, v, rfl, hv, -⟩ := block_counts hss
    have hsplit : (t :: ts) ++ beyond = vs ++ t' :: (ns ++ u :: (inside ++ [v])) := by
      have happ : ((t :: ts) ++ beyond) ++ rest =
          (vs ++ t' :: (ns ++ u :: (inside ++ [v]))) ++ rest := by
        rw [List.append_assoc, hvs]
        simp
      exact List.append_cancel_right happ
    have hopens := congrArg opens hsplit
    have hcloses := congrArg closes hsplit
    rw [opens_append, opens_append] at hopens
    rw [closes_append, closes_append] at hcloses
    have hpaired := hp.equal
    have hmore := hled beyond (List.prefix_append beyond rest)
    exact absurd hsplit (hseam (scope_crossing ht' hn hu hss hv (by omega)))
  | ended => exact absurd (by simpa using hvs) (hseam (Solid.nil.seamless []))
  | @skipped u us hu hk =>
    obtain ⟨a, as, hts, hus⟩ := hs.behind_decorators hp.equal hz hwritten hvs
    obtain ⟨rfl, hbehind⟩ := List.cons.inj hus
    have hcounts := hp.equal
    rw [hts, opens_append, closes_append] at hcounts
    rw [hts] at hs
    obtain ⟨ws, hws⟩ := skipStatement_stops (by omega) (hs.of_append (List.cons_ne_nil u as))
      (beyond ++ skipStatement u us)
    rw [← hbehind] at hws
    have hlength := congrArg List.length hws
    simp only [List.length_append] at hlength hlt
    omega

theorem Gives.beginsModel {t : Token} {m : Model} (h : Gives (statement t ts) (.model m) rest) :
    BeginsModel (t :: ts) := by
  obtain ⟨ds, us, hds, hread⟩ := h.readAs
  cases hread with
  | declaration hw =>
    cases hw with
    | @model t' u vs n target? ms ht hu _ =>
      exact ⟨ds, t', u, _, hds, ht, by simp [hu]⟩

theorem BeginsModel.ne_nil (h : BeginsModel ts) : ts ≠ [] := by
  obtain ⟨ds, t, u, us, hds, -⟩ := h
  rintro rfl
  exact absurd hds.length_lt (by simp)

theorem statements_model {m : Model} (h : statements zs = .ok [.model m]) :
    BeginsModel zs ∧ Balanced zs ∧ Seamless zs [] := by
  cases zs with
  | nil =>
    rw [statements_nil] at h
    cases h
  | cons t zs =>
    obtain ⟨first, mid, hfirst, others, hothers, hss⟩ := statements_cons_iff.1 h
    obtain ⟨rfl, rfl⟩ := List.cons.inj hss
    have hmid : mid = [] := by
      cases mid with
      | nil => rfl
      | cons u mid =>
        obtain ⟨_, _, _, _, _, hnil⟩ := statements_cons_iff.1 hothers
        cases hnil
    subst hmid
    refine ⟨hfirst.beginsModel, ?_⟩
    obtain ⟨ds, us, hds, hread⟩ := hfirst.readAs
    obtain ⟨vs, hvs, hwritten⟩ := before_decorators hds
    cases hread with
    | @declaration ws _ _ hw =>
      rw [hvs, List.append_nil]
      have hne : Statement.model m ≠ .projection := by simp
      exact ⟨hwritten.balanced_decorators.append (hw.balanced hne),
        seamless_statement hwritten (hw.seamless hne [])⟩

/-- Where statements begin behind a first part of a model, none of them is a model. -/
theorem not_model_of_seamless {ss : List Statement} (hseam : Seamless (us ++ ts) [])
    (hb : Balanced (us ++ ts)) (he : opens us = closes us) (hs : EndsStatement us)
    (h : statements ts = .ok ss) (m : Model) : .model m ∉ ss := by
  induction h using statements_induct generalizing us with
  | nil => exact List.not_mem_nil
  | @cons t ts mid first others hfirst hothers ih =>
    rw [List.mem_cons, not_or]
    constructor
    · rintro rfl
      have hbegins := hfirst.beginsModel
      rw [← List.append_nil (t :: ts)] at hbegins
      exact hseam us _ rfl (List.cons_ne_nil t ts) he hs hbegins
    · by_cases hmid : mid = []
      · subst hmid
        cases statements_nil.symm.trans hothers
        exact List.not_mem_nil
      · obtain ⟨used, hused, hle, hends⟩ := hfirst.ends hmid
        rw [hused, ← List.append_assoc] at hseam hb
        have hled := hb.led (List.prefix_append (us ++ used) mid)
        simp only [opens_append, closes_append] at hled
        rcases hends with hends | ⟨u, vs, rfl, hu⟩
        · have hcounts : opens (us ++ used) = closes (us ++ used) := by
            simp only [opens_append, closes_append]
            omega
          exact ih hseam hb hcounts (hends.append_left us)
        · have hfirst : (us ++ used) ++ [u] <+: (us ++ used) ++ u :: vs := ⟨vs, by simp⟩
          have hclose := hb.led hfirst
          have hcounts := counts_cons_close hu []
          simp only [opens_append, closes_append, hcounts.1, hcounts.2, opens_nil,
            closes_nil] at hclose
          omega

/-- What is left behind a statement of tokens with their braces in pairs. -/
theorem Gives.left {t : Token} {s : Statement} (h : Gives (statement t ts) s rest)
    (hp : Paired (t :: ts)) (hs : EndsStatement (t :: ts)) :
    rest = [] ∨ Paired rest ∧ EndsStatement rest := by
  by_cases hr : rest = []
  · exact .inl hr
  obtain ⟨used, hused, hle, -⟩ := statement_spans h hr
  rw [hused] at hp hs
  have hled := hp.led used (List.prefix_append used rest)
  exact .inr ⟨hp.of_append (by omega), hs.of_append hr⟩

theorem ne_nil_of_statements {ss : List Statement} (h : statements ts = .ok ss)
    (hts : ts ≠ []) : ss ≠ [] := by
  obtain ⟨t, ts, rfl⟩ := List.exists_cons_of_ne_nil hts
  obtain ⟨first, mid, -, others, -, rfl⟩ := statements_cons_iff.1 h
  exact List.cons_ne_nil first others

/-- A model is the last statement behind others exactly if these come to no projection that is left
open. -/
theorem statements_model_behind {m : Model} {ss : List Statement}
    (hts : ts = [] ∨ Paired ts ∧ EndsStatement ts) (hz : statements zs = .ok [.model m])
    (h : statements (ts ++ zs) = .ok ss) :
    ss.getLast? = some (.model m) ↔ ¬ OpenProjection ts := by
  obtain ⟨hbegins, hbalanced, hseam⟩ := statements_model hz
  generalize hall : ts ++ zs = all at h
  induction h using statements_induct generalizing ts with
  | nil => exact absurd (List.append_eq_nil_iff.1 hall).2 hbegins.ne_nil
  | @cons t us mid first others hfirst hothers ih =>
    cases ts with
    | nil =>
      cases hz.symm.trans (hall ▸ statements_cons_iff.2 ⟨_, _, hfirst, _, hothers, rfl⟩)
      simp [not_openProjection_nil]
    | cons t ts =>
      obtain ⟨rfl, rfl⟩ := List.cons.inj hall
      obtain ⟨hp, hs⟩ := hts.resolve_left (List.cons_ne_nil t ts)
      -- the first statement stops in front of the model, or is a projection that runs on into it
      rcases hfirst.stops hp hs hbegins (fun _ => hbalanced.led) with
        ⟨mid, rfl, halone⟩ | ⟨rfl, hopen, us, rfl, hcounts, hends⟩
      · have hne : others ≠ [] := ne_nil_of_statements hothers (by simp [hbegins.ne_nil])
        rw [openProjection_cons_iff halone, List.getLast?_cons_of_ne_nil hne]
        exact ih (halone.left hp hs) rfl
      · have hmodel := not_model_of_seamless hseam hbalanced hcounts hends hothers m
        -- what is left of the model begins behind a first part of it, so there is no model in it
        refine iff_of_false (fun hlast => ?_) (fun hnone => hnone hopen)
        have hmem := List.mem_of_getLast? hlast
        rw [List.mem_cons] at hmem
        exact hmem.elim nofun hmodel

end SchemaContract.Grammar
