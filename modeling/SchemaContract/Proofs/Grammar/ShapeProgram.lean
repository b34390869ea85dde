import SchemaContract.Proofs.Grammar.Cut
import SchemaContract.Proofs.Grammar.Shape
import SchemaContract.Schema.Source

/-!
The shape of programs that are read. Whatever is written with identifiers for names is well-formed,
so every program that a source is read as is.
-/
namespace SchemaContract

theorem Token.WellNamed.of_subset {ts us : List Token} (h : WellNamed ts) (hs : us ⊆ ts) :
    WellNamed us :=
  fun u hu => h u (hs hu)

namespace Grammar

open Token (WellNamed)

variable {ts us rest : List Token}

theorem Written.wellFormed {φ : Phrase} (h : Written φ ts) (hts : WellNamed ts) :
    φ.WellFormed := by
  have hd : Derives φ (ts ++ []) [] := h.derives fun _ _ => rfl
  rw [List.append_nil] at hd
  exact (hd.wellFormed hts).2

theorem WrittenName.isDottedName {n : String} (h : WrittenName n ts) (hts : WellNamed ts) :
    IsDottedName n := by
  have hd : Gives (dottedName (ts ++ [])) n [] := h.gives_dottedName rfl
  rw [List.append_nil] at hd
  exact (wellNamed_dottedName hd hts).2

theorem WrittenList.wellFormed {α : Type} {element : α → List Token → Prop} {P : α → Prop}
    {as : List α} (h : WrittenList element as ts)
    (helement : ∀ a ts, element a ts → WellNamed ts → P a) (hts : WellNamed ts) :
    ∀ a ∈ as, P a := by
  induction h with
  | none => simp
  | last ha _ =>
    intro a hm
    obtain rfl := List.mem_singleton.1 hm
    exact helement _ _ ha (hts.of_subset (List.subset_append_left ..))
  | @more t ts us a as ha _ _ ih =>
    have hus : us ⊆ ts ++ t :: us := fun u hu => by simp [hu]
    intro a' hm
    rcases List.mem_cons.1 hm with rfl | hm
    · exact helement _ _ ha (hts.of_subset (List.subset_append_left ..))
    · exact ih (hts.of_subset hus) a' hm

theorem WrittenCase.wellFormed {c : Case} (h : WrittenCase c ts) (hts : WellNamed ts) :
    c.WellFormed := by
  cases h with
  | @spread t ts us ds e hds ht he => exact he.wellFormed (hts.of_subset fun u hu => by simp [hu])
  | @plain t ts ds k hds ht =>
    have hkey := wellFormed_of_token ht fun n => hts t (by simp) n
    exact ⟨hkey, trivial, hds.wellFormed (hts.of_subset (List.subset_append_left ..))⟩
  | @valued t u ts us ds k e hds ht hu he =>
    have hkey := wellFormed_of_token ht fun n => hts t (by simp) n
    exact ⟨hkey, he.wellFormed (hts.of_subset fun u hu => by simp [hu]),
      hds.wellFormed (hts.of_subset (List.subset_append_left ..))⟩

theorem WrittenSignature.wellFormed {o : Operation} (h : WrittenSignature o ts)
    (hds : Decorator.AllWellFormed o.decorators) (hts : WellNamed ts) : o.WellFormed := by
  cases h with
  | signature ht _ hps _ he =>
    exact ⟨hts.head ht, hds, hps.wellFormed (hts.of_subset fun u hu => by simp [hu]),
      he.wellFormed (hts.of_subset fun u hu => by simp [hu])⟩

theorem WrittenOperation.wellFormed {o : Operation} (h : WrittenOperation o ts)
    (hts : WellNamed ts) : o.WellFormed := by
  cases h with
  | short hds _ hw =>
    exact hw.wellFormed (hds.wellFormed (hts.of_subset (List.subset_append_left ..)))
      (hts.of_subset (List.subset_append_right ..))
  | long hds _ hw =>
    exact hw.wellFormed (hds.wellFormed (hts.of_subset (List.subset_append_left ..)))
      (hts.of_subset fun u hu => by simp [hu])

theorem WrittenVariant.wellFormed {v : Variant} (h : WrittenVariant v ts) (hts : WellNamed ts) :
    v.WellFormed := by
  cases h with
  | @variant t u ts us ds k e hds ht hu he =>
    exact ⟨wellFormed_of_token ht fun n => hts t (by simp) n,
      he.wellFormed (hts.of_subset fun u hu => by simp [hu])⟩

theorem WrittenModel.wellFormed {target? : Option Expression} {ms : List Member}
    (h : WrittenModel target? ms ts) (hts : WellNamed ts) :
    Expression.OptionWellFormed target? ∧ Member.AllWellFormed ms := by
  cases h with
  | body _ hms => exact ⟨trivial, hms.wellFormed hts.tail⟩
  | target _ he _ => exact ⟨he.wellFormed (hts.of_subset fun u hu => by simp [hu]), trivial⟩
  | both _ he _ hms =>
    exact ⟨he.wellFormed (hts.of_subset fun u hu => by simp [hu]),
      hms.wellFormed (hts.of_subset fun u hu => by simp [hu])⟩

theorem WrittenDeclaration.wellFormed {ds : List Decorator} {s : Statement}
    (h : WrittenDeclaration ds s ts) (hds : Decorator.AllWellFormed ds) (hts : WellNamed ts) :
    s.WellFormed := by
  cases h with
  | empty | importPath | projection => trivial
  | usingName _ hn _ => exact hn.isDottedName (hts.of_subset fun u hu => by simp [hu])
  | emptyScope _ hn _ =>
    exact ⟨hn.isDottedName (hts.of_subset fun u hu => by simp [hu]), hds, trivial⟩
  | model _ hu hm => exact ⟨hts.tail.head hu, hds, hm.wellFormed hts.tail.tail⟩
  | enumeration _ hu _ hcs =>
    exact ⟨hts.tail.head hu, hds,
      hcs.wellFormed (fun _ _ => WrittenCase.wellFormed) hts.tail.tail.tail⟩
  | interface _ hu _ hos =>
    exact ⟨hts.tail.head hu, hds,
      hos.wellFormed (fun _ _ => WrittenOperation.wellFormed) hts.tail.tail.tail⟩
  | operation _ ho hw _ =>
    subst ho
    exact hw.wellFormed hds (hts.of_subset fun u hu => by simp [hu])
  | union _ hu _ hvs =>
    exact ⟨hts.tail.head hu, hds,
      hvs.wellFormed (fun _ _ => WrittenVariant.wellFormed) hts.tail.tail.tail⟩
  | typeAlias _ hu _ he _ =>
    exact ⟨hts.tail.head hu, he.wellFormed (hts.of_subset fun u hu => by simp [hu])⟩

theorem statement_wellFormed_of
    (hblock : ∀ {us rest : List Token} {ss : List Statement}, us.length ≤ ts.length →
      Gives (block us) ss rest → WellNamed us → Statement.AllWellFormed ss)
    {t : Token} {s : Statement} (h : Gives (statement t ts) s rest)
    (hts : WellNamed (t :: ts)) : s.WellFormed := by
  obtain ⟨ds, us, hds, hread⟩ := h.readAs
  obtain ⟨vs, hvs, hwritten⟩ := before_decorators hds
  have hlt := hds.length_lt
  rw [hvs] at hts
  have hdecorators : Decorator.AllWellFormed ds :=
    hwritten.wellFormed (hts.of_subset (List.subset_append_left ..))
  have hus : WellNamed us := hts.of_subset (List.subset_append_right ..)
  cases hread with
  | declaration hw =>
    exact hw.wellFormed hdecorators (hus.of_subset (List.subset_append_left ..))
  | @scope t' u ns us _ n ss _ hn _ hss =>
    simp only [List.length_cons, List.length_append] at hlt
    have hname : WellNamed ns := hus.of_subset fun w hw => by simp [hw]
    have hinner : WellNamed us := hus.of_subset fun w hw => by simp [hw]
    exact ⟨hn.isDottedName hname, hdecorators, hblock (by omega) hss hinner⟩
  | ended | skipped => trivial

theorem block_wellFormed {ss : List Statement} (h : Gives (block ts) ss rest)
    (hts : WellNamed ts) : Statement.AllWellFormed ss := by
  induction h using Gives.block_induct with
  | close => trivial
  | cons ht hfirst hothers inner ih =>
    exact ⟨statement_wellFormed_of inner hfirst hts, ih (hts.of_suffix hfirst.statement_suffix)⟩

theorem statements_wellFormed {ss : List Statement} (h : statements ts = .ok ss)
    (hts : WellNamed ts) : Statement.AllWellFormed ss := by
  induction h using statements_induct with
  | nil => trivial
  | cons hfirst hothers ih =>
    exact ⟨statement_wellFormed_of (fun _ hss => block_wellFormed hss) hfirst hts,
      ih (hts.of_suffix hfirst.statement_suffix)⟩

end Grammar

/-- A source that is read is cut into tokens, and these are read. -/
theorem Program.exists_tokens_of_ofSource {source : String} {p : Program}
    (h : Program.ofSource source = .ok p) :
    ∃ tokens, Tokens.ofText source.toList = .ok tokens ∧
      Grammar.statements tokens.list = .ok p.statements := by
  unfold Program.ofSource Program.ofText at h
  cases ht : Tokens.ofText source.toList with
  | error fault =>
    rw [ht] at h
    cases h
  | ok tokens =>
    rw [ht] at h
    unfold Program.ofTokens at h
    cases hs : Grammar.statements tokens.list with
    | error fault => simp [hs] at h
    | ok ss =>
      simp only [hs, Except.ok.injEq] at h
      exact ⟨tokens, rfl, h ▸ hs⟩

/-- A source is read as a well-formed program, if it is read. -/
theorem Program.wellFormed_of_ofSource {source : String} {p : Program}
    (h : Program.ofSource source = .ok p) : p.WellFormed := by
  obtain ⟨tokens, ht, hs⟩ := Program.exists_tokens_of_ofSource h
  exact Grammar.statements_wellFormed hs (Tokens.wellNamed_of_ofText ht)

end SchemaContract
