import SchemaContract.Proofs.Grammar.Braces

/-!
Blocks of namespaces. A block that is read ends at some closing brace; it is the one that belongs to
the block exactly if no statement inside goes beyond a closing brace that it did not open. There are
two ways to go beyond: decorators that no declaration follows, and the header of a projection.
-/
namespace SchemaContract.Grammar

variable {ts us rest : List Token}

/-- A statement that begins at the tokens goes beyond a closing brace that it did not open: the
brace stands right behind its decorators, or in front of the block of a projection. -/
inductive Overruns (ts : List Token) : Prop where
  | decorators {ds : List Decorator} {t : Token} {us : List Token} :
      Gives (decorators ts) ds (t :: us) → t.kind = .mark .rightBrace → Overruns ts
  | projection {ds : List Decorator} {t u : Token} {header us : List Token} :
      Gives (Grammar.decorators ts) ds (t :: (header ++ u :: us)) →
      t.kind = .name "projection" → (∀ w ∈ header, w.kind ≠ .mark .leftBrace) →
      u.kind = .mark .rightBrace → Overruns ts

/-- While a block is read from the tokens, a statement is read from the others: one of the block, or
one of a block inside. -/
inductive Within : List Token → List Token → Prop where
  | first {t : Token} {ts : List Token} :
      t.kind ≠ .mark .rightBrace → Within (t :: ts) (t :: ts)
  | behind {t : Token} {ts mid us : List Token} {s : Statement} :
      t.kind ≠ .mark .rightBrace → Gives (statement t ts) s mid → Within mid us →
      Within (t :: ts) us
  | inside {t u v : Token} {ts ts₁ ts₂ us : List Token} {ds : List Decorator} {n : String} :
      t.kind ≠ .mark .rightBrace → Gives (decorators (t :: ts)) ds (u :: ts₁) →
      u.kind = .name "namespace" → Gives (dottedName ts₁) n (v :: ts₂) →
      v.kind = .mark .leftBrace → Within ts₂ us → Within (t :: ts) us

def Keeps (ts : List Token) : Prop :=
  ∀ us, Within ts us → ¬ Overruns us

/-- Tokens in front of the rest in which no more braces open than close, and all are in pairs if
some condition holds. -/
def Spans (ts rest : List Token) (P : Prop) : Prop :=
  ∃ used, ts = used ++ rest ∧ opens used ≤ closes used ∧ (P → Balanced used)

theorem Spans.of_balanced {P : Prop} (h : Before Balanced ts rest) : Spans ts rest P := by
  obtain ⟨used, rfl, hused⟩ := h
  exact ⟨used, rfl, Nat.le_of_eq hused.counts, fun _ => hused⟩

theorem Spans.append {P : Prop} {mid : List Token} (h : Spans ts mid P)
    (hmid : Spans mid rest P) : Spans ts rest P := by
  obtain ⟨used, rfl, hle, hused⟩ := h
  obtain ⟨others, rfl, hle', hothers⟩ := hmid
  refine ⟨used ++ others, by simp, ?_, fun hP => (hused hP).append (hothers hP)⟩
  simp only [opens_append, closes_append]
  omega

theorem Spans.mono {P Q : Prop} (h : Spans ts rest P) (hPQ : Q → P) : Spans ts rest Q := by
  obtain ⟨used, hts, hle, hused⟩ := h
  exact ⟨used, hts, hle, fun hQ => hused (hPQ hQ)⟩

theorem spans_block {P : Prop} {t u : Token} (ht : t.kind = .mark .leftBrace)
    (hu : u.kind = .mark .rightBrace) (h : Spans ts (u :: rest) P) : Spans (t :: ts) rest P := by
  obtain ⟨inside, rfl, hle, hinside⟩ := h
  refine ⟨t :: (inside ++ [u]), by simp, ?_, fun hP => .block ht (hinside hP) hu .nil⟩
  have hopen := counts_cons_open ht (inside ++ [u])
  have hclose := counts_cons_close hu []
  simp only [hopen.1, hopen.2, opens_append, closes_append, hclose.1, hclose.2, opens_nil,
    closes_nil]
  omega

theorem balanced_of_forall_ne (hl : ∀ t ∈ ts, t.kind ≠ .mark .leftBrace)
    (hr : ∀ t ∈ ts, t.kind ≠ .mark .rightBrace) : Balanced ts := by
  induction ts with
  | nil => exact .nil
  | cons t ts ih =>
    exact .cons (hl t List.mem_cons_self) (hr t List.mem_cons_self)
      (ih (fun u hu => hl u (List.mem_cons_of_mem t hu))
        (fun u hu => hr u (List.mem_cons_of_mem t hu)))

/-- Only closing braces in the header of a projection are in no pair. -/
theorem spans_projection {P : Prop} {t u v : Token} {header inside : List Token}
    (ht : t.kind = .name "projection") (hheader : ∀ w ∈ header, w.kind ≠ .mark .leftBrace)
    (hu : u.kind = .mark .leftBrace) (hin : Balanced inside) (hv : v.kind = .mark .rightBrace)
    (hP : P → ∀ w ∈ header, w.kind ≠ .mark .rightBrace) :
    Spans (t :: (header ++ u :: (inside ++ v :: rest))) rest P := by
  have hword : Spans (t :: (header ++ u :: (inside ++ v :: rest)))
      (header ++ u :: (inside ++ v :: rest)) P :=
    .of_balanced ⟨[t], rfl, Balanced.nil.cons_of_name ht⟩
  have hopens : opens header = 0 := List.countP_eq_zero.2 (by simpa using hheader)
  have hspans : Spans (header ++ u :: (inside ++ v :: rest)) (u :: (inside ++ v :: rest)) P := by
    refine ⟨header, rfl, ?_, fun h => balanced_of_forall_ne hheader (hP h)⟩
    rw [hopens]
    exact Nat.zero_le _
  exact hword.append (hspans.append (spans_block hu hv (.of_balanced ⟨inside, rfl, hin⟩)))

theorem statement_spans_of
    (hblock : ∀ {us rest : List Token} {ss : List Statement}, us.length ≤ ts.length →
      Gives (block us) ss rest → ∃ u : Token, u.kind = .mark .rightBrace ∧
        Spans us (u :: rest) (Keeps us))
    {t : Token} {s : Statement} (h : Gives (statement t ts) s rest) (hr : rest ≠ []) :
    Spans (t :: ts) rest (t.kind ≠ .mark .rightBrace ∧ Keeps (t :: ts)) := by
  obtain ⟨ds, us, hds, hread⟩ := h.readAs
  obtain ⟨vs, hvs, hwritten⟩ := before_decorators hds
  refine Spans.append (.of_balanced ⟨vs, hvs, hwritten.balanced_decorators⟩) ?_
  cases hread with
  | @declaration ws _ _ hw =>
    by_cases hs : s = .projection
    · subst hs
      cases hw with
      | @projection t' u v header inside ht' hheader hu hin hv =>
        have hprojection := @spans_projection rest (t.kind ≠ .mark .rightBrace ∧ Keeps (t :: ts))
          t' u v header inside ht' hheader hu hin hv
        simp only [List.cons_append, List.append_assoc, List.nil_append] at hds ⊢
        -- a closing brace in the header is one that the statement goes beyond
        refine hprojection fun hP w hw hclose => ?_
        obtain ⟨before, behind, rfl⟩ := List.append_of_mem hw
        rw [List.append_assoc, List.cons_append] at hds
        have hbefore : ∀ x ∈ before, x.kind ≠ .mark .leftBrace :=
          fun x hx => hheader x (List.mem_append_left _ hx)
        exact hP.2 _ (.first hP.1) (.projection hds ht' hbefore hclose)
    · exact .of_balanced ⟨ws, rfl, hw.balanced hs⟩
  | @scope t' u ns us _ n ss ht' hname hu hss =>
    have hlt := hds.length_lt
    simp only [List.length_cons, List.length_append] at hlt
    obtain ⟨v, hv, hspans⟩ := hblock (by omega) hss
    have hhead : Spans (t' :: (ns ++ u :: us)) (u :: us)
        (t.kind ≠ .mark .rightBrace ∧ Keeps (t :: ts)) :=
      .of_balanced ⟨t' :: ns, rfl, hname.balanced.cons_of_name ht'⟩
    refine hhead.append (spans_block hu hv (hspans.mono ?_))
    intro hP ws hws
    have hdotted : Gives (dottedName (ns ++ u :: us)) n (u :: us) :=
      hname.gives_dottedName (mark?_cons_of_ne (by simp [hu]))
    exact hP.2 ws (.inside hP.1 hds ht' hdotted hu hws)
  | ended => exact absurd rfl hr
  | @skipped t' us ht' hk =>
    unfold skipStatement at hr ⊢
    split
    · next hclose =>
      -- at a closing brace that brace is skipped, and is in no pair
      refine ⟨[t'], rfl, ?_, fun hP => ?_⟩
      · have hcounts := counts_cons_close hclose []
        rw [hcounts.1, hcounts.2]
        exact Nat.zero_le _
      · exact absurd (.decorators hds hclose) (hP.2 _ (.first hP.1))
    · next hclose =>
      rw [if_neg hclose] at hr
      exact .of_balanced ((recovers _).balanced hr)

theorem block_spans {ss : List Statement} (h : Gives (block ts) ss rest) :
    ∃ u : Token, u.kind = .mark .rightBrace ∧ Spans ts (u :: rest) (Keeps ts) := by
  induction h using Gives.block_induct with
  | @close t rest ht => exact ⟨t, ht, .of_balanced ⟨[], rfl, .nil⟩⟩
  | cons ht hfirst hothers inner ih =>
    have hspans := statement_spans_of inner hfirst hothers.block_ne_nil
    obtain ⟨u, hu, hrest⟩ := ih
    refine ⟨u, hu, (hspans.mono fun hP => ⟨ht, hP⟩).append (hrest.mono fun hP ws hws => ?_)⟩
    exact hP ws (.behind ht hfirst hws)

theorem statement_spans {t : Token} {s : Statement} (h : Gives (statement t ts) s rest)
    (hr : rest ≠ []) : Spans (t :: ts) rest (t.kind ≠ .mark .rightBrace ∧ Keeps (t :: ts)) :=
  statement_spans_of (fun _ hss => block_spans hss) h hr

-- Where a statement goes beyond a closing brace, more braces close than open.
def Exceeds (ts rest : List Token) : Prop :=
  Before (fun used => opens used < closes used) ts rest

theorem Exceeds.append {P : Prop} {mid : List Token} (h : Exceeds ts mid)
    (hmid : Spans mid rest P) : Exceeds ts rest := by
  obtain ⟨used, rfl, hlt⟩ := h
  obtain ⟨others, rfl, hle, -⟩ := hmid
  refine ⟨used ++ others, by simp, ?_⟩
  simp only [opens_append, closes_append]
  omega

theorem Spans.exceeds {P : Prop} {mid : List Token} (h : Spans ts mid P)
    (hmid : Exceeds mid rest) : Exceeds ts rest := by
  obtain ⟨used, rfl, hle, -⟩ := h
  obtain ⟨others, rfl, hlt⟩ := hmid
  refine ⟨used ++ others, by simp, ?_⟩
  simp only [opens_append, closes_append]
  omega

theorem exceeds_block {t u : Token} (ht : t.kind = .mark .leftBrace)
    (hu : u.kind = .mark .rightBrace) (h : Exceeds ts (u :: rest)) : Exceeds (t :: ts) rest := by
  obtain ⟨inside, rfl, hlt⟩ := h
  refine ⟨t :: (inside ++ [u]), by simp, ?_⟩
  have hopen := counts_cons_open ht (inside ++ [u])
  have hclose := counts_cons_close hu []
  simp only [hopen.1, hopen.2, opens_append, closes_append, hclose.1, hclose.2, opens_nil,
    closes_nil]
  omega

theorem Gives.behind_decorators {t u : Token} {s : Statement} {ds : List Decorator}
    (h : Gives (statement t ts) s rest) (hds : Gives (decorators (t :: ts)) ds (u :: us)) :
    Spans (t :: ts) (u :: us) True ∧ Gives (declaration ds u us) s rest := by
  obtain ⟨vs, hvs, hwritten⟩ := before_decorators hds
  refine ⟨.of_balanced ⟨vs, hvs, hwritten.balanced_decorators⟩, ?_⟩
  obtain ⟨ds', us', hds', ⟨rfl, -⟩ | ⟨u', vs', rfl, hd⟩⟩ := gives_statement_iff.1 h
  · cases (hds.unique hds').2
  · obtain ⟨rfl, hus⟩ := hds.unique hds'
    cases hus
    exact hd

theorem Overruns.exceeds {t : Token} {s : Statement} (h : Overruns (t :: ts))
    (hs : Gives (statement t ts) s rest) : Exceeds (t :: ts) rest := by
  cases h with
  | @decorators ds u us hds hu =>
    obtain ⟨hspans, hd⟩ := hs.behind_decorators hds
    have hskip := (gives_declaration_skipped (by simp [hu]) (by simp [hu])).1 hd
    rw [skipStatement, if_pos hu] at hskip
    refine hspans.exceeds ⟨[u], congrArg (u :: ·) hskip.2, ?_⟩
    have hclose := counts_cons_close hu []
    show opens [u] < closes [u]
    rw [hclose.1, hclose.2]
    exact Nat.zero_lt_one
  | @projection ds u v header us hds hu hheader hv =>
    obtain ⟨hspans, hd⟩ := hs.behind_decorators hds
    obtain ⟨hprojection, -⟩ := (gives_declaration_keyword hu rfl).1 hd
    obtain ⟨header', w, inside, x, hus, hheader', hw, hin, hx⟩ := before_projection hprojection
    refine hspans.exceeds ?_
    rw [hus]
    -- the header goes on to the first brace that opens, so past this closing one
    have hmem : v ∈ header' := by
      have hvw : v ≠ w := by
        rintro rfl
        exact absurd (hv.symm.trans hw) (by simp)
      rcases List.append_eq_append_iff.1 hus with ⟨as, rfl, has⟩ | ⟨as, rfl, has⟩
      · cases as with
        | nil => exact absurd (List.cons.inj has).1 hvw
        | cons a as => simp [(List.cons.inj has).1]
      · cases as with
        | nil => exact absurd (List.cons.inj has).1.symm hvw
        | cons a as => exact absurd hw (hheader w (by simp [(List.cons.inj has).1]))
    have hcloses : 0 < closes header' := List.countP_pos_iff.2 ⟨v, hmem, by simpa using hv⟩
    have hopens : opens header' = 0 := List.countP_eq_zero.2 (by simpa using hheader')
    have hword : Spans (u :: (header' ++ w :: (inside ++ x :: rest)))
        (header' ++ w :: (inside ++ x :: rest)) True :=
      .of_balanced ⟨[u], rfl, Balanced.nil.cons_of_name hu⟩
    have hblock : Spans (w :: (inside ++ x :: rest)) rest True :=
      spans_block hw hx (.of_balanced ⟨inside, rfl, hin⟩)
    have hlt : opens header' < closes header' := hopens ▸ hcloses
    exact hword.exceeds (Exceeds.append ⟨header', rfl, hlt⟩ hblock)

theorem Within.exceeds {ss : List Statement} (h : Within ts us) (ho : Overruns us)
    (hb : Gives (block ts) ss rest) :
    ∃ u : Token, u.kind = .mark .rightBrace ∧ Exceeds ts (u :: rest) := by
  induction h generalizing ss rest with
  | @first t ts ht =>
    obtain ⟨first, mid, hfirst, others, hothers, rfl⟩ := (gives_block_of_ne ht).1 hb
    obtain ⟨u, hu, hspans⟩ := block_spans hothers
    exact ⟨u, hu, (ho.exceeds hfirst).append hspans⟩
  | @behind t ts mid us s ht hs _ ih =>
    obtain ⟨first, mid', hfirst, others, hothers, rfl⟩ := (gives_block_of_ne ht).1 hb
    obtain ⟨rfl, rfl⟩ := hs.unique hfirst
    obtain ⟨u, hu, hexceeds⟩ := ih ho hothers
    exact ⟨u, hu, (statement_spans hs hothers.block_ne_nil).exceeds hexceeds⟩
  | @inside t u v ts ts₁ ts₂ us ds n ht hds hu hn hv _ ih =>
    obtain ⟨first, mid, hfirst, others, hothers, rfl⟩ := (gives_block_of_ne ht).1 hb
    obtain ⟨hspans, hd⟩ := hfirst.behind_decorators hds
    obtain ⟨n', us', hn', hscope⟩ := gives_scope_iff.1 ((gives_declaration_keyword hu rfl).1 hd)
    obtain ⟨rfl, rfl⟩ := hn.unique hn'
    obtain ⟨w, vs, inner, hvs, hw, hinner, -⟩ | ⟨hnone, -⟩ := hscope
    · cases hvs
      obtain ⟨x, hx, hexceeds⟩ := ih ho hinner
      obtain ⟨ns, hns, hname⟩ := before_dottedName hn
      obtain ⟨y, hy, hrest⟩ := block_spans hothers
      have hhead : Spans (u :: ts₁) (v :: ts₂) True :=
        .of_balanced ⟨u :: ns, by rw [hns]; rfl, hname.balanced.cons_of_name hu⟩
      exact ⟨y, hy, (hspans.exceeds (hhead.exceeds (exceeds_block hv hx hexceeds))).append hrest⟩
    · exact absurd hv (mark?_cons_eq_none_iff.1 hnone)

/-- The inside of a block by its counts: as many braces open as close exactly where they are in
pairs. -/
theorem block_counts {ss : List Statement} (h : Gives (block ts) ss rest) :
    ∃ inside u, ts = inside ++ u :: rest ∧ u.kind = .mark .rightBrace ∧
      opens inside ≤ closes inside ∧ (opens inside = closes inside → Keeps ts) ∧
      (Keeps ts → Balanced inside) := by
  obtain ⟨u, hu, inside, hts, hle, hkeeps⟩ := block_spans h
  refine ⟨inside, u, hts, hu, hle, fun he us hus ho => ?_, hkeeps⟩
  obtain ⟨v, hv, inside', hts', hlt⟩ := hus.exceeds ho h
  have hinside : inside = inside' ∧ u :: rest = v :: rest :=
    List.append_inj' (hts.symm.trans hts') rfl
  rw [hinside.1] at he
  omega

/-- A block that is read ends at its own closing brace, the one before which its braces are paired,
exactly if no statement in it goes beyond a closing brace that it did not open. -/
theorem block_paired_iff {ss : List Statement} (h : Gives (block ts) ss rest) :
    ∃ inside u, ts = inside ++ u :: rest ∧ u.kind = .mark .rightBrace ∧
      (Paired inside ↔ ∀ us, Within ts us → ¬ Overruns us) := by
  obtain ⟨inside, u, hts, hu, -, hcounts, hkeeps⟩ := block_counts h
  exact ⟨inside, u, hts, hu, fun hp => hcounts hp.equal, fun hk => (hkeeps hk).paired⟩

theorem block_paired_iff_skipped :
    let ts : List Token := [⟨.name "a", 14⟩, ⟨.mark .leftBrace, 16⟩, ⟨.mark .rightBrace, 17⟩,
      ⟨.mark .rightBrace, 19⟩]
    Gives (block ts) [.invalid] [] ∧
      ∃ inside u, ts = inside ++ [u] ∧ u.kind = .mark .rightBrace ∧
        (Paired inside ↔ ∀ us, Within ts us → ¬ Overruns us) := by
  intro ts
  have hskip : WrittenSkipped (ts.take 3) := .cons (by decide) (.block rfl .nil rfl)
  have hw : WrittenStatements [.invalid] (ts.take 3) :=
    .invalid ⟨by decide, fun word hword => by cases hword; decide⟩ hskip .nil
  have h : Gives (block ts) [.invalid] [] := hw.reads.1 _ [] rfl
  exact ⟨h, block_paired_iff h⟩

/-- In `namespace N { @d } }` the decorator stands before the brace that closes the block, which is
skipped with it: the block ends at the second brace. -/
theorem block_not_always_paired :
    ¬ ∀ (ts rest : List Token) (ss : List Statement), Gives (block ts) ss rest →
      ∃ inside u, ts = inside ++ u :: rest ∧ u.kind = .mark .rightBrace ∧ Paired inside := by
  intro h
  have hds : Gives (decorators [⟨.mark .atSign, 14⟩, ⟨.name "d", 15⟩, ⟨.mark .rightBrace, 17⟩,
      ⟨.mark .rightBrace, 19⟩]) [⟨"d", []⟩] [⟨.mark .rightBrace, 17⟩, ⟨.mark .rightBrace, 19⟩] :=
    (Written.decorator rfl (.single rfl) .noArguments .noDecorator).given
      (Phrase.stops_cons_mark _ rfl (by decide))
  have hb : Gives (block [⟨.mark .atSign, 14⟩, ⟨.name "d", 15⟩, ⟨.mark .rightBrace, 17⟩,
      ⟨.mark .rightBrace, 19⟩]) [.invalid] [] :=
    (gives_block_of_ne (by simp)).2 ⟨.invalid, _,
      gives_statement_iff.2 ⟨_, _, hds, .inr ⟨_, _, rfl,
        (gives_declaration_skipped (by simp) (by simp)).2 ⟨rfl, rfl⟩⟩⟩,
      [], (gives_block_cons rfl).2 ⟨rfl, rfl⟩, rfl⟩
  obtain ⟨inside, u, hts, -, hpaired⟩ := h _ _ _ hb
  have hinside := (List.append_inj' (hts.symm.trans
    (List.append_cons [_, _] _ [_]) : inside ++ [u] = _ ++ [_]) rfl).1
  have := hpaired.equal
  rw [hinside] at this
  exact absurd this (by decide)

end SchemaContract.Grammar
