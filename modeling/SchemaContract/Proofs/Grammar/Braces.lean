import SchemaContract.Proofs.Grammar.SoundProgram

/-!
Braces. Whatever is written for a phrase or a declaration has its braces in pairs; what is skipped
has them in pairs up to where skipping stops. Pairs are told by counting: equally many braces of the
two kinds, and never more closing ones so far.
-/
namespace SchemaContract.Grammar

variable {ts us : List Token}

/-- How many braces open. -/
def opens (ts : List Token) : Nat :=
  ts.countP (·.kind = .mark .leftBrace)

/-- How many braces close. -/
def closes (ts : List Token) : Nat :=
  ts.countP (·.kind = .mark .rightBrace)

@[simp] theorem opens_nil : opens [] = 0 := rfl

@[simp] theorem closes_nil : closes [] = 0 := rfl

@[simp] theorem opens_append (ts us : List Token) : opens (ts ++ us) = opens ts + opens us :=
  List.countP_append

@[simp] theorem closes_append (ts us : List Token) : closes (ts ++ us) = closes ts + closes us :=
  List.countP_append

theorem counts_cons_open {t : Token} (ht : t.kind = .mark .leftBrace) (ts : List Token) :
    opens (t :: ts) = opens ts + 1 ∧ closes (t :: ts) = closes ts := by
  simp [opens, closes, ht]

theorem counts_cons_close {t : Token} (ht : t.kind = .mark .rightBrace) (ts : List Token) :
    opens (t :: ts) = opens ts ∧ closes (t :: ts) = closes ts + 1 := by
  simp [opens, closes, ht]

theorem counts_cons_of_ne {t : Token} (hl : t.kind ≠ .mark .leftBrace)
    (hr : t.kind ≠ .mark .rightBrace) (ts : List Token) :
    opens (t :: ts) = opens ts ∧ closes (t :: ts) = closes ts := by
  simp [opens, closes, hl, hr]

/-- Equally many braces open and close, and in no first part close more than open. -/
structure Paired (ts : List Token) : Prop where
  equal : opens ts = closes ts
  led : ∀ us, us <+: ts → closes us ≤ opens us

/-- What stands behind as many braces of one kind as of the other is paired too. -/
theorem Paired.of_append (h : Paired (ts ++ us)) (he : opens ts = closes ts) : Paired us where
  equal := by
    have hall := h.equal
    simp only [opens_append, closes_append] at hall
    omega
  led vs hvs := by
    have hled := h.led (ts ++ vs) ((List.prefix_append_right_inj ts).2 hvs)
    simp only [opens_append, closes_append] at hled
    omega

theorem Balanced.append (h : Balanced ts) (hus : Balanced us) : Balanced (ts ++ us) := by
  induction h with
  | nil => exact hus
  | cons hl hr _ ih => exact .cons hl hr ih
  | block ht hin hu _ _ ih =>
    rw [List.cons_append, List.append_assoc, List.cons_append]
    exact .block ht hin hu ih

theorem Balanced.counts (h : Balanced ts) : opens ts = closes ts := by
  induction h with
  | nil => rfl
  | cons hl hr _ ih => rw [(counts_cons_of_ne hl hr _).1, (counts_cons_of_ne hl hr _).2, ih]
  | @block t u ts us ht _ hu _ ih₁ ih₂ =>
    have hopen := counts_cons_open ht (ts ++ u :: us)
    have hclose := counts_cons_close hu us
    rw [hopen.1, hopen.2, opens_append, closes_append, hclose.1, hclose.2]
    omega

theorem Balanced.led (h : Balanced ts) (hp : us <+: ts) : closes us ≤ opens us := by
  induction h generalizing us with
  | nil =>
    rw [List.prefix_nil.1 hp]
    exact Nat.le_refl _
  | cons hl hr _ ih =>
    rcases List.prefix_cons_iff.1 hp with rfl | ⟨vs, rfl, hvs⟩
    · exact Nat.le_refl _
    · rw [(counts_cons_of_ne hl hr _).1, (counts_cons_of_ne hl hr _).2]
      exact ih hvs
  | @block t u ts us' ht hin hu _ ih₁ ih₂ =>
    rcases List.prefix_cons_iff.1 hp with rfl | ⟨vs, rfl, hvs⟩
    · exact Nat.le_refl _
    rw [(counts_cons_open ht vs).1, (counts_cons_open ht vs).2]
    -- the prefix ends inside the block, or behind it
    rcases List.prefix_or_prefix_of_prefix hvs (List.prefix_append ts _) with hshort | ⟨ws, rfl⟩
    · have := ih₁ hshort
      omega
    · have hcounts := hin.counts
      rcases List.prefix_cons_iff.1 ((List.prefix_append_right_inj ts).1 hvs) with
        rfl | ⟨xs, rfl, hxs⟩
      · simp only [List.append_nil]
        omega
      · have := ih₂ hxs
        have hclose := counts_cons_close hu xs
        rw [opens_append, closes_append, hclose.1, hclose.2]
        omega

theorem Balanced.paired (h : Balanced ts) : Paired ts :=
  ⟨h.counts, fun _ hp => h.led hp⟩

theorem Balanced.cons_of_mark {t : Token} {m : Mark} (ht : t.kind = .mark m)
    (hm : m ∉ [.leftBrace, .rightBrace]) (h : Balanced ts) : Balanced (t :: ts) := by
  refine .cons ?_ ?_ h
  · rw [ht]
    rintro ⟨⟩
    exact hm (by decide)
  · rw [ht]
    rintro ⟨⟩
    exact hm (by decide)

theorem Balanced.cons_of_ne_mark {t : Token} (ht : ∀ m, t.kind ≠ .mark m) (h : Balanced ts) :
    Balanced (t :: ts) :=
  .cons (ht _) (ht _) h

theorem Balanced.cons_of_name {t : Token} {n : String} (ht : t.kind = .name n)
    (h : Balanced ts) : Balanced (t :: ts) :=
  h.cons_of_ne_mark (by simp [ht])

theorem Balanced.cons_of_key {t : Token} {k : Key} (ht : t.kind = k.token) (h : Balanced ts) :
    Balanced (t :: ts) :=
  h.cons_of_ne_mark fun m => ht ▸ k.token_ne_mark m

theorem Balanced.cons_of_separator {t : Token} (ht : t.IsSeparator) (h : Balanced ts) :
    Balanced (t :: ts) :=
  ht.elim (h.cons_of_mark · (by decide)) (h.cons_of_mark · (by decide))

theorem WrittenMark.balanced {m : Mark} {b : Bool} (h : WrittenMark m b ts)
    (hm : m ∉ [.leftBrace, .rightBrace]) : Balanced ts := by
  cases h with
  | absent => exact .nil
  | present ht => exact Balanced.nil.cons_of_mark ht hm

theorem WrittenName.balanced {n : String} (h : WrittenName n ts) : Balanced ts := by
  induction h with
  | single ht => exact Balanced.nil.cons_of_name ht
  | dotted _ ht hu ih =>
    exact ih.append ((Balanced.nil.cons_of_name hu).cons_of_mark ht (by decide))

theorem WrittenPath.balanced {e : Expression} (h : WrittenPath e ts) : Balanced ts := by
  induction h with
  | reference ht _ => exact Balanced.nil.cons_of_name ht
  | member _ ht hu ih =>
    exact ih.append ((Balanced.nil.cons_of_name hu).cons_of_mark ht (by decide))

/-- Tokens with their braces in pairs, and a closing brace that belongs to none of them. -/
def Closing (ts : List Token) : Prop :=
  ∃ inside t, ts = inside ++ [t] ∧ Balanced inside ∧ t.kind = .mark .rightBrace

theorem Closing.append_left (h : Balanced ts) (hus : Closing us) : Closing (ts ++ us) := by
  obtain ⟨inside, t, rfl, hin, ht⟩ := hus
  exact ⟨ts ++ inside, t, by simp, h.append hin, ht⟩

/-- A block from its opening brace on. -/
theorem Closing.block {t : Token} (h : Closing ts) (ht : t.kind = .mark .leftBrace) :
    Balanced (t :: ts) := by
  obtain ⟨inside, u, rfl, hin, hu⟩ := h
  exact .block ht hin hu .nil

/-- Members in a body have the brace that closes it. -/
def Phrase.Braced (ts : List Token) : Phrase → Prop
  | members .body _ => Closing ts
  | _ => Balanced ts

theorem ItemList.balanced_close {t : Token} {place : ItemList} (ht : t.kind = .mark place.close) :
    Balanced [t] :=
  Balanced.nil.cons_of_mark ht (by cases place <;> decide)

theorem Phrase.braced_members_close {t : Token} {place : MemberList} {ms : List Member}
    (h : Balanced ts) (ht : t.kind = .mark place.close) :
    (members place ms).Braced (ts ++ [t]) := by
  cases place with
  | body => exact ⟨ts, t, rfl, h, ht⟩
  | parameters => exact h.append (Balanced.nil.cons_of_mark ht (by decide))

theorem Phrase.Braced.append_left {place : MemberList} {ms ms' : List Member} (h : Balanced ts)
    (hus : (members place ms).Braced us) : (members place ms').Braced (ts ++ us) := by
  cases place with
  | body => exact Closing.append_left h hus
  | parameters => exact h.append hus

theorem Written.braced {φ : Phrase} (h : Written φ ts) : φ.Braced ts := by
  induction h with
  | expression hlead _ _ ih₁ ih₂ =>
    exact (hlead.balanced (by decide)).append (Balanced.append ih₁ ih₂)
  | noUnionOption | noIntersectionOption | noDefault | noDecorator | noArguments => exact .nil
  | unionOption ht _ _ ih₁ ih₂ | intersectionOption ht _ _ ih₁ ih₂ =>
    exact (Balanced.append ih₁ ih₂).cons_of_mark ht (by decide)
  | intersection _ _ ih₁ ih₂ => exact Balanced.append ih₁ ih₂
  | operand _ ih => exact ih
  | array _ ht hu ih =>
    exact Balanced.append ih
      ((Balanced.nil.cons_of_mark hu (by decide)).cons_of_mark ht (by decide))
  | number ht => exact Balanced.nil.cons_of_ne_mark (by simp [ht])
  | text ht => exact Balanced.nil.cons_of_ne_mark (by simp [ht])
  | truth ht => exact Balanced.nil.cons_of_ne_mark (by simp [ht])
  | keyword ht _ => exact Balanced.nil.cons_of_name ht
  | path hp => exact hp.balanced
  | tuple ht _ ih => exact Balanced.cons_of_mark ht (by decide) ih
  | model ht _ ih => exact Closing.block ih ht
  | group ht _ hu ih =>
    exact (Balanced.append ih (Balanced.nil.cons_of_mark hu (by decide))).cons_of_mark ht
      (by decide)
  | noListing ht => exact ItemList.balanced_close ht
  | listing _ ih => exact ih
  | lastItem _ ht ih => exact Balanced.append ih (ItemList.balanced_close ht)
  | item _ ht _ ih₁ ih₂ => exact Balanced.append ih₁ (Balanced.cons_of_mark ht (by decide) ih₂)
  | noMembers ht => exact @Phrase.braced_members_close [] _ _ [] .nil ht
  | lastMember _ _ ht ih₁ ih₂ =>
    rw [← List.append_assoc]
    exact Phrase.braced_members_close (Balanced.append ih₁ ih₂) ht
  | @members t ts us vs place ds m ms _ _ ht _ ih₁ ih₂ ih₃ =>
    have hts : ts ++ (us ++ t :: vs) = (ts ++ (us ++ [t])) ++ vs := by simp
    rw [hts]
    exact Phrase.Braced.append_left
      (Balanced.append ih₁ (Balanced.append ih₂ (Balanced.nil.cons_of_separator ht))) ih₃
  | spread ht _ ih => exact Balanced.cons_of_mark ht (by decide) ih
  | property ht hmark hu _ _ ih₁ ih₂ =>
    have htype := (Balanced.append ih₁ ih₂).cons_of_mark hu (by decide)
    exact ((hmark.balanced (by decide)).append htype).cons_of_key ht
  | default ht _ ih => exact Balanced.cons_of_mark ht (by decide) ih
  | decorator ht hn _ _ ih₁ ih₂ =>
    exact (hn.balanced.append (Balanced.append ih₁ ih₂)).cons_of_mark ht (by decide)
  | arguments ht _ ih => exact Balanced.cons_of_mark ht (by decide) ih

theorem Written.balanced_expression {e : Expression} (h : Written (.expression e) ts) :
    Balanced ts :=
  h.braced

theorem Written.balanced_decorators {ds : List Decorator} (h : Written (.decorators ds) ts) :
    Balanced ts :=
  h.braced

theorem WrittenList.closing {α : Type} {element : α → List Token → Prop} {as : List α}
    (helement : ∀ a ts, element a ts → Balanced ts) (h : WrittenList element as ts) :
    Closing ts := by
  induction h with
  | none ht => exact ⟨[], _, rfl, .nil, ht⟩
  | last ha ht => exact ⟨_, _, rfl, helement _ _ ha, ht⟩
  | more ha ht _ ih =>
    rw [List.append_cons]
    exact ih.append_left ((helement _ _ ha).append (Balanced.nil.cons_of_separator ht))

theorem WrittenCase.balanced {c : Case} (h : WrittenCase c ts) : Balanced ts := by
  cases h with
  | spread hds ht he => exact hds.balanced_decorators.append (he.braced.cons_of_mark ht (by decide))
  | plain hds ht => exact hds.balanced_decorators.append (Balanced.nil.cons_of_key ht)
  | valued hds ht hu he =>
    exact hds.balanced_decorators.append ((he.braced.cons_of_mark hu (by decide)).cons_of_key ht)

theorem WrittenSignature.balanced {o : Operation} (h : WrittenSignature o ts) : Balanced ts := by
  cases h with
  | signature ht hu hps hv he =>
    have hresult := he.balanced_expression.cons_of_mark hv (by decide)
    exact ((hps.braced.append hresult).cons_of_mark hu (by decide)).cons_of_name ht

theorem WrittenOperation.balanced {o : Operation} (h : WrittenOperation o ts) :
    Balanced ts := by
  cases h with
  | short hds _ hw => exact hds.balanced_decorators.append hw.balanced
  | long hds ht hw => exact hds.balanced_decorators.append (hw.balanced.cons_of_name ht)

theorem WrittenVariant.balanced {v : Variant} (h : WrittenVariant v ts) : Balanced ts := by
  cases h with
  | variant hds ht hu he =>
    have htype := he.balanced_expression.cons_of_mark hu (by decide)
    exact hds.balanced_decorators.append (htype.cons_of_key ht)

theorem WrittenModel.balanced {target? : Option Expression} {ms : List Member}
    (h : WrittenModel target? ms ts) : Balanced ts := by
  cases h with
  | body ht hms => exact Closing.block hms.braced ht
  | target ht he hu =>
    exact (he.balanced_expression.append (Balanced.nil.cons_of_mark hu (by decide))).cons_of_name ht
  | both ht he hu hms =>
    exact (he.balanced_expression.append (Closing.block hms.braced hu)).cons_of_name ht

/-- Only the header of a projection may hold braces that are in no pair. -/
theorem WrittenDeclaration.balanced {ds : List Decorator} {s : Statement}
    (h : WrittenDeclaration ds s ts) (hs : s ≠ .projection) : Balanced ts := by
  have hend {u : Token} (hu : u.kind = .mark .semicolon) : Balanced [u] :=
    Balanced.nil.cons_of_mark hu (by decide)
  cases h with
  | empty ht => exact hend ht
  | importPath ht hu hv =>
    exact ((hend hv).cons_of_ne_mark (by simp [hu])).cons_of_name ht
  | usingName ht hn hu => exact (hn.balanced.append (hend hu)).cons_of_name ht
  | emptyScope ht hn hu => exact (hn.balanced.append (hend hu)).cons_of_name ht
  | model ht hu hm => exact (hm.balanced.cons_of_name hu).cons_of_name ht
  | enumeration ht hu hv hcs =>
    have hlist := hcs.closing fun _ _ => WrittenCase.balanced
    exact ((hlist.block hv).cons_of_name hu).cons_of_name ht
  | interface ht hu hv hos =>
    have hlist := hos.closing fun _ _ => WrittenOperation.balanced
    exact ((hlist.block hv).cons_of_name hu).cons_of_name ht
  | operation ht _ hw hu => exact (hw.balanced.append (hend hu)).cons_of_name ht
  | union ht hu hv hvs =>
    have hlist := hvs.closing fun _ _ => WrittenVariant.balanced
    exact ((hlist.block hv).cons_of_name hu).cons_of_name ht
  | typeAlias ht hu hv he hw =>
    have htype := (he.balanced_expression.append (hend hw)).cons_of_mark hv (by decide)
    exact (htype.cons_of_name hu).cons_of_name ht
  | projection => exact absurd rfl hs

/-- Where reading goes on inside a statement that is skipped, and what is left there. -/
inductive Recovers : List Token → List Token → Prop where
  | ended : Recovers [] []
  | closing {t : Token} {ts : List Token} :
      t.kind = .mark .rightBrace → Recovers (t :: ts) (t :: ts)
  | semicolon {t : Token} {ts : List Token} : t.kind = .mark .semicolon → Recovers (t :: ts) ts
  | block {t u : Token} {inside ts : List Token} :
      t.kind = .mark .leftBrace → Balanced inside → u.kind = .mark .rightBrace →
      Recovers (t :: (inside ++ u :: ts)) ts
  /-- A block that is not closed. -/
  | unclosed {t : Token} {ts : List Token} :
      t.kind = .mark .leftBrace → behindBlock 0 ts = none → Recovers (t :: ts) []
  | cons {t : Token} {ts rest : List Token} :
      t.kind ∉ [.mark .semicolon, .mark .leftBrace, .mark .rightBrace] → Recovers ts rest →
      Recovers (t :: ts) rest

theorem recovers (ts : List Token) : Recovers ts (recovered ts) := by
  fun_induction recovered ts with
  | case1 => exact .ended
  | case2 t ts ht => exact .semicolon ht
  | case3 t ts _ ht =>
    cases hb : behindBlock 0 ts with
    | none => exact .unclosed ht hb
    | some rest =>
      obtain ⟨inside, u, rfl, hin, hu⟩ := before_behindBlock hb
      exact .block ht hin hu
  | case4 t ts _ _ ht => exact .closing ht
  | case5 t ts hs hl hr ih => exact .cons (by simp [hs, hl, hr]) ih

/-- What is skipped has its braces in pairs unless it runs to the end. -/
theorem Recovers.balanced {rest : List Token} (h : Recovers ts rest) (hr : rest ≠ []) :
    Before Balanced ts rest := by
  induction h with
  | ended => exact absurd rfl hr
  | closing => exact ⟨[], rfl, .nil⟩
  | @semicolon t ts ht => exact ⟨[t], rfl, Balanced.nil.cons_of_mark ht (by decide)⟩
  | @block t u inside ts ht hin hu =>
    exact ⟨t :: (inside ++ [u]), by simp, .block ht hin hu .nil⟩
  | unclosed => exact absurd rfl hr
  | @cons t ts rest ht _ ih =>
    obtain ⟨used, rfl, hused⟩ := ih hr
    simp only [List.mem_cons, List.not_mem_nil, or_false, not_or] at ht
    exact ⟨t :: used, rfl, .cons ht.2.1 ht.2.2 hused⟩

end SchemaContract.Grammar
