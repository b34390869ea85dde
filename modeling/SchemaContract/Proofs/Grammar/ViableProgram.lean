import Mathlib
import SchemaContract.Proofs.Grammar.Cut
import SchemaContract.Proofs.Grammar.ViableDeclaration
import SchemaContract.Proofs.Schema.Cutting

/-!
Programs that fail. The statements in front of the one that holds the fault stay what they are when
they are followed by its completion, since none of them is skipped up to the end. A block that ends
with a statement that is skipped up to the end gets an end for that statement first.
-/
namespace SchemaContract

namespace Grammar

variable {ts us rest : List Token}

theorem behindBlock_closed {depth : Nat} (h : behindBlock depth ts = none) :
    ∃ more, ∀ rest, behindBlock depth (ts ++ (more ++ rest)) = some rest := by
  fun_induction behindBlock depth ts with
  | case1 depth =>
    induction depth with
    | zero => exact ⟨[closer .rightBrace], fun rest => behindBlock_close rfl rest⟩
    | succ depth ih =>
      obtain ⟨more, hmore⟩ := ih
      refine ⟨closer .rightBrace :: more, fun rest => ?_⟩
      exact (behindBlock_close_succ rfl depth _).trans (hmore rest)
  | case2 depth t ts ht ih =>
    obtain ⟨more, hmore⟩ := ih h
    exact ⟨more, fun rest => (behindBlock_open ht depth _).trans (hmore rest)⟩
  | case3 => cases h
  | case4 t ts _ ht depth ih =>
    obtain ⟨more, hmore⟩ := ih h
    exact ⟨more, fun rest => (behindBlock_close_succ ht depth _).trans (hmore rest)⟩
  | case5 depth t ts hl hr ih =>
    obtain ⟨more, hmore⟩ := ih h
    exact ⟨more, fun rest => (behindBlock_of_ne hl hr depth _).trans (hmore rest)⟩

theorem recovered_closed (h : recovered ts = []) :
    ∃ more, ∀ rest, recovered (ts ++ (more ++ rest)) = rest := by
  fun_induction recovered ts with
  | case1 =>
    refine ⟨[closer .semicolon], fun rest => ?_⟩
    exact if_pos rfl
  | case2 t ts ht =>
    subst h
    refine ⟨[], fun rest => ?_⟩
    rw [List.nil_append, List.singleton_append, recovered, if_pos ht]
  | case3 t ts hs ht =>
    have hblock : ∃ more, ∀ rest, behindBlock 0 (ts ++ (more ++ rest)) = some rest := by
      cases hb : behindBlock 0 ts with
      | none => exact behindBlock_closed hb
      | some behind =>
        rw [hb, Option.getD_some] at h
        subst h
        exact ⟨[], behindBlock_append hb⟩
    obtain ⟨more, hmore⟩ := hblock
    refine ⟨more, fun rest => ?_⟩
    rw [List.cons_append, recovered, if_neg hs, if_pos ht, hmore, Option.getD_some]
  | case4 => cases h
  | case5 t ts hs hl hr ih =>
    obtain ⟨more, hmore⟩ := ih h
    refine ⟨more, fun rest => ?_⟩
    rw [List.cons_append, recovered, if_neg hs, if_neg hl, if_neg hr, hmore]

theorem skipStatement_closed {t : Token} (h : skipStatement t ts = []) :
    ∃ more, ∀ rest, skipStatement t (ts ++ (more ++ rest)) = rest := by
  unfold skipStatement at h ⊢
  split at h
  · next ht =>
    subst h
    exact ⟨[], fun rest => if_pos ht⟩
  · next ht =>
    obtain ⟨more, hmore⟩ := recovered_closed h
    exact ⟨more, fun rest => (if_neg ht).trans (hmore rest)⟩

/-- A projection that fails does so at the end, and what is open there can be closed. -/
theorem projection_closed {fault : Fault} (h : projection ts = .error fault) :
    fault.rest = [] ∧ ∃ more, Gives (projection (ts ++ more)) () [] := by
  induction ts with
  | nil =>
    cases h
    have hempty : Gives (projection [closer .leftBrace, closer .rightBrace]) () [] :=
      (gives_projection_of_eq rfl).2 (behindBlock_close rfl [])
    exact ⟨rfl, _, hempty⟩
  | cons t ts ih =>
    rw [projection] at h
    split at h
    · next ht =>
      split at h
      · cases h
      · next hb =>
        cases h
        obtain ⟨more, hmore⟩ := behindBlock_closed hb
        have hclosed := hmore []
        rw [List.append_nil] at hclosed
        exact ⟨rfl, more, (gives_projection_of_eq ht).2 hclosed⟩
    · next ht =>
      cases hp : projection ts with
      | ok found =>
        rw [hp] at h
        cases h
      | error fault' =>
        rw [hp] at h
        cases h
        obtain ⟨hrest, more, hmore⟩ := ih hp
        exact ⟨hrest, more, (gives_projection_of_ne ht).2 hmore⟩

theorem viable_projection {ds : List Decorator} {t : Token} (ht : t.kind = .name "projection")
    (ts : List Token) : Viable (Declares ds t) ts (projection ts) := by
  intro fault h
  obtain ⟨hrest, more, hmore⟩ := projection_closed h
  obtain ⟨header, u, inside, v, hts, hheader, hu, hin, hv⟩ := before_projection hmore
  refine ⟨ts, more, by rw [hrest, List.append_nil], .projection, ?_⟩
  rw [hts]
  exact .projection ht hheader hu hin hv

theorem Gives.decorators_append_cons {ds : List Decorator} {u : Token}
    (h : Gives (decorators ts) ds (u :: us)) (zs : List Token) :
    Gives (decorators (ts ++ zs)) ds (u :: (us ++ zs)) := by
  by_cases hu : u.kind = .mark .leftBracket
  · -- an opening bracket alone shows it as well, since decorators do not end with an operand
    obtain ⟨ws, rfl, hw⟩ := before_decorators h
    rw [List.append_assoc]
    exact hw.given (Phrase.stops_cons_mark _ hu (by simp [Phrase.barred]))
  · exact gives_decorators_append h ⟨u, us, rfl, fun _ => hu⟩ zs

/-- A statement that took all tokens can be ended so that more follows, unless it is a closing
brace. -/
theorem Gives.statement_closed {t : Token} {s : Statement} (h : Gives (statement t ts) s [])
    (ht : t.kind ≠ .mark .rightBrace) :
    ∃ more s', ReadsStatement s' (t :: (ts ++ more)) := by
  obtain ⟨ds, us, hds, hread⟩ := h.readAs
  obtain ⟨ws, hts, hw⟩ := before_decorators hds
  generalize hend : ([] : List Token) = rest at hread
  cases hread with
  | @declaration us _ _ hd =>
    subst hend
    rw [List.append_nil] at hts
    refine ⟨[], s, ?_⟩
    rw [List.append_nil, hts]
    exact readsStatement_declaration hw hd
  | @scope u v ns us _ n ss hu hn hv hss =>
    subst hend
    obtain ⟨inside, w, rfl, -⟩ := block_counts hss
    refine ⟨[], .scope n ds ss, ?_⟩
    rw [List.append_nil, hts]
    refine readsStatement_scope hw hu hn hv fun rest => ?_
    have hblock := gives_block_append hss rest
    rwa [List.append_assoc] at hblock
  | ended =>
    rw [List.append_nil] at hts
    refine ⟨[closer .semicolon], .empty, ?_⟩
    rw [← List.cons_append, hts]
    exact readsStatement_declaration hw (.empty rfl)
  | @skipped u us hu hk =>
    obtain ⟨more, hmore⟩ := skipStatement_closed hend.symm
    refine ⟨more, .invalid, fun rest => ?_⟩
    rw [List.cons_append, List.append_assoc]
    have hd := hds.decorators_append_cons (more ++ rest)
    exact ⟨mark?_cons_of_ne ht, ds, u, us ++ (more ++ rest), hd,
      (gives_declaration_skipped hu hk).2 ⟨rfl, hmore rest⟩⟩

def ReadsBehind (ds : List Decorator) (ts : List Token) : Prop :=
  ∃ s, ∀ ws, Written (.decorators ds) ws → ReadsStatement s (ws ++ ts)

def ReadsBlock (ts : List Token) : Prop :=
  ∃ ss, ∀ rest, Gives (block (ts ++ closer .rightBrace :: rest)) ss rest

theorem Declares.readsBehind {ds : List Decorator} {t : Token} (h : Declares ds t ts) :
    ReadsBehind ds (t :: ts) := by
  obtain ⟨s, h⟩ := h
  exact ⟨s, fun ws hw => readsStatement_declaration hw h⟩

theorem ReadsStatement.readsBlock {s : Statement} (h : ReadsStatement s ts) : ReadsBlock ts :=
  ⟨[s], fun _ => h.gives_block ((gives_block_cons rfl).2 ⟨rfl, rfl⟩)⟩

/-- A statement with another behind it ends for what it is made of and the first token of that. -/
theorem Gives.statement_split {t u : Token} {s : Statement} {vs : List Token}
    (h : Gives (statement t ts) s (u :: vs)) :
    ∃ us, ts = us ++ u :: vs ∧ ∀ zs, Gives (statement t (us ++ u :: zs)) s (u :: zs) := by
  obtain ⟨ws, hws⟩ := h.statement_suffix
  cases ws with
  | nil =>
    obtain ⟨-, rfl⟩ := List.cons.inj hws
    exact absurd h.length_lt (Nat.lt_irrefl _)
  | cons w us =>
    obtain ⟨rfl, rfl⟩ := List.cons.inj hws
    have hsplit (zs : List Token) : us ++ u :: zs = (us ++ [u]) ++ zs := by simp
    refine ⟨us, rfl, fun zs => ?_⟩
    rw [List.append_eq, hsplit] at h
    have hcut : Gives (statement w (us ++ [u])) s [u] := h.statement_of_append
    rw [hsplit]
    exact hcut.statement_append (fun _ => List.cons_ne_nil _ _) zs

mutual

theorem viable_statement (t : Token) (ts : List Token) :
    Viable (fun us => ∃ s, ReadsStatement s (t :: us)) ts (statement t ts) := by
  rw [statement]
  have hdecorators : Viable (fun us => ∃ s, ReadsStatement s (t :: us)) ts
      (decorators (t :: ts)) := by
    by_cases ht : t.kind = .mark .atSign
    · exact (viable_decorators_cons ht ts).closed fun ds us hds =>
        ⟨[closer .semicolon], .empty, readsStatement_declaration hds (.empty rfl)⟩
    · rw [decorators, mark?_cons_of_ne ht]
      exact viable_ok
  refine .bind hdecorators fun ds mid h hds => ?_
  obtain ⟨ws, hts, hw⟩ := before_decorators ⟨h, hds⟩
  cases mid with
  | nil => exact viable_ok
  | cons u vs =>
    have hle : vs.length ≤ ts.length := Nat.le_of_succ_le_succ (Nat.le_of_lt_succ h)
    refine .bind ?_ fun _ _ _ _ => viable_ok
    have hdeclaration := viable_declaration ds u vs
    cases ws with
    | nil =>
      obtain ⟨rfl, rfl⟩ := List.cons.inj hts
      exact hdeclaration.part fun s us hs => ⟨s, hs [] hw⟩
    | cons w ws =>
      obtain ⟨rfl, rfl⟩ := List.cons.inj hts
      exact .behind (.cons (hdeclaration.part fun s us hs => ⟨s, hs (t :: ws) hw⟩))
termination_by 5 * ts.length + 4

theorem viable_declaration (ds : List Decorator) (t : Token) (ts : List Token) :
    Viable (fun us => ReadsBehind ds (t :: us)) ts (declaration ds t ts) := by
  rw [declaration]
  have hdeclares {α : Type} {x : Except Fault (Found Token ts.length α)}
      (h : Viable (Declares ds t) ts x) : Viable (fun us => ReadsBehind ds (t :: us)) ts x :=
    h.imp fun _ => Declares.readsBehind
  cases ht : t.kind with
  | name word =>
    dsimp only
    cases hk : Keyword.ofName? word with
    | none => exact viable_ok
    | some k =>
      unfold Keyword.ofName? at hk
      split at hk <;> cases hk <;> refine Viable.map ?_
      · exact hdeclares (viable_importPath ht ts)
      · exact hdeclares (viable_usingName ht ts)
      · exact viable_scope ht ts
      · exact hdeclares (viable_model ht ts)
      · exact hdeclares (viable_enumeration ht ts)
      · exact hdeclares (viable_interface ht ts)
      · exact hdeclares (viable_bareOperation ht ts)
      · exact hdeclares (viable_union ht ts)
      · exact hdeclares (viable_typeAlias ht ts)
      · exact hdeclares (viable_projection ht ts)
  | mark m => cases m <;> exact viable_ok
  | number | text | truth => exact viable_ok
termination_by 5 * ts.length + 3

theorem viable_scope {ds : List Decorator} {t : Token} (ht : t.kind = .name "namespace")
    (ts : List Token) : Viable (fun us => ReadsBehind ds (t :: us)) ts (scope ds ts) := by
  rw [scope]
  have hempty {ns : List Token} {n : String} (hn : WrittenName n ns) :
      ∃ more, ReadsBehind ds (t :: (ns ++ more)) :=
    ⟨[closer .semicolon], Declares.readsBehind ⟨_, .emptyScope ht hn rfl⟩⟩
  refine .bind ((viable_dottedName ts).closed fun n us hn => hempty hn) fun n ts₁ h₁ hx => ?_
  obtain ⟨ns, hts, hn⟩ := before_dottedName ⟨h₁, hx⟩
  rcases mark?_cases .leftBrace ts₁ with hm | ⟨u, us, rfl, hu⟩
  · simp only [hm]
    exact .behind_of_eq hts (.bind (viable_mark (hempty hn)) fun _ _ _ _ => viable_ok)
  · simp only [mark?_cons_of_eq hu]
    have hlt : us.length < ts.length := Nat.lt_of_succ_lt h₁
    have hblock := (viable_block us).closed (P := fun vs => ReadsBehind ds (t :: (ns ++ u :: vs)))
      fun ss vs hss => ⟨[closer .rightBrace], .scope n ds ss, fun ws hw =>
        readsStatement_scope hw ht hn hu hss⟩
    exact .behind_of_eq hts (.cons (.bind hblock fun _ _ _ _ => viable_ok))
termination_by 5 * ts.length + 2

theorem viable_block (ts : List Token) : Viable ReadsBlock ts (block ts) := by
  cases ts with
  | nil =>
    rw [block]
    exact viable_error ⟨[], [], fun rest => (gives_block_cons rfl).2 ⟨rfl, rfl⟩⟩
  | cons t ts => exact .cons (viable_block_cons t ts)
termination_by 5 * ts.length + 1

/-- In a block the fault is never at the first token of a statement. -/
theorem viable_block_cons (t : Token) (ts : List Token) :
    Viable (fun us => ReadsBlock (t :: us)) ts (block (t :: ts)) := by
  rw [block]
  split
  · exact viable_ok
  next ht =>
  have hstatement := (viable_statement t ts).part (P := fun us => ReadsBlock (t :: us))
    fun _ us hs => hs.readsBlock
  refine .bind hstatement fun first mid h hx => ?_
  have hfirst : Gives (statement t ts) first mid := ⟨h, hx⟩
  cases mid with
  | nil =>
    obtain ⟨more, s, hs⟩ := hfirst.statement_closed ht
    refine .behind_of_eq (List.append_nil ts).symm (.bind ?_ fun _ _ _ _ => viable_ok)
    rw [block]
    exact viable_error ⟨more, hs.readsBlock⟩
  | cons u vs =>
    have hlt : vs.length < ts.length := Nat.lt_of_succ_lt_succ h
    obtain ⟨us, hts, hsplit⟩ := hfirst.statement_split
    have hothers := (viable_block_cons u vs).part (P := fun vs => ReadsBlock (t :: (us ++ u :: vs)))
      fun ss vs hss => ⟨first :: ss, fun rest => by
        have hread := hsplit (vs ++ closer .rightBrace :: rest)
        rw [List.cons_append, List.append_assoc]
        exact (gives_block_of_ne ht).2 ⟨first, _, hread, ss, hss rest, rfl⟩⟩
    exact .behind_of_eq hts (.cons (.bind hothers fun _ _ _ _ => viable_ok))
termination_by 5 * ts.length + 5

end

theorem viable_statements_cons (t : Token) (ts : List Token) :
    Viable (fun us => ∃ ss, statements (t :: us) = .ok ss) ts (statements (t :: ts)) := by
  cases hs : statement t ts with
  | error fault =>
    have hstatement := (viable_statement t ts).part
      (P := fun us => ∃ ss, statements (t :: us) = .ok ss) fun s us hs =>
        ⟨[s], by simpa using hs.statements_eq statements_nil⟩
    rw [statements]
    refine .bind hstatement fun first mid h hfirst => ?_
    cases hs.symm.trans hfirst
  | ok found =>
    obtain ⟨first, mid, h⟩ := found
    have hfirst : Gives (statement t ts) first mid := ⟨h, hs⟩
    rw [statements_of_gives hfirst]
    cases mid with
    | nil =>
      rw [statements_nil]
      exact viable_ok
    | cons u vs =>
      have hlt : vs.length < ts.length := Nat.lt_of_succ_lt_succ h
      obtain ⟨us, hts, hsplit⟩ := hfirst.statement_split
      have hothers := (viable_statements_cons u vs).part
        (P := fun vs => ∃ ss, statements (t :: (us ++ u :: vs)) = .ok ss) fun ss vs hss =>
          ⟨first :: ss, statements_cons_iff.2 ⟨first, _, hsplit vs, ss, hss, rfl⟩⟩
      exact .behind_of_eq hts (.cons hothers.map)
termination_by ts.length

theorem viable_statements (ts : List Token) :
    Viable (fun us => ∃ ss, statements us = .ok ss) ts (statements ts) := by
  cases ts with
  | nil =>
    rw [statements_nil]
    exact viable_ok
  | cons t ts => exact .cons (viable_statements_cons t ts)

end Grammar

/-- A source whose tokens make no program has its fault at one of them, or at its end. The tokens in
front of it are those that some program begins with. -/
theorem Program.ofSource_error_viable {source : String} {tokens : Tokens} {e : SyntaxError}
    (ht : Tokens.ofText source.toList = .ok tokens) (h : Program.ofSource source = .error e) :
    ∃ before behind, tokens.list = before ++ behind ∧
      e.position = .ofOffset source.toList
        (Tokens.offsetOf (Text.byteLength source.toList) behind) ∧
      ∃ more p, ∀ text stop, Program.ofTokens text ⟨before ++ more, stop⟩ = .ok p := by
  have hstop : tokens.stop = Text.byteLength source.toList := by
    obtain ⟨ps, hps, -, rfl⟩ := Tokens.ofText_eq_ok_iff.1 ht
    exact congrArg Text.byteLength hps
  unfold Program.ofSource Program.ofText at h
  rw [ht] at h
  dsimp only [Program.ofTokens] at h
  cases hs : Grammar.statements tokens.list with
  | ok ss =>
    rw [hs] at h
    cases h
  | error fault =>
    rw [hs, hstop] at h
    cases h
    obtain ⟨used, more, hlist, ss, hss⟩ := Grammar.viable_statements tokens.list fault hs
    refine ⟨used, fault.rest, hlist, rfl, more, ⟨ss⟩, fun text stop => ?_⟩
    rw [Program.ofTokens, hss]

/-- In `model A { x y }` the fault is at the second name, where a colon is missing. -/
theorem Program.ofSource_error_viable_property :
    let source := "model A \x7b x y \x7d"
    let tokens : Tokens := ⟨[⟨.name "model", 0⟩, ⟨.name "A", 6⟩, ⟨.mark .leftBrace, 8⟩,
      ⟨.name "x", 10⟩, ⟨.name "y", 12⟩, ⟨.mark .rightBrace, 14⟩], 15⟩
    let e : SyntaxError := ⟨⟨1, 13⟩, .expected .propertyColon⟩
    Tokens.ofText source.toList = .ok tokens ∧ Program.ofSource source = .error e ∧
      ∃ before behind, tokens.list = before ++ behind ∧
        e.position = .ofOffset source.toList
          (Tokens.offsetOf (Text.byteLength source.toList) behind) ∧
        ∃ more p, ∀ text stop, Program.ofTokens text ⟨before ++ more, stop⟩ = .ok p := by
  intro source tokens e
  have ht : Tokens.ofText source.toList = .ok tokens := by cbv
  have h : Program.ofSource source = .error e := by cbv
  exact ⟨ht, h, Program.ofSource_error_viable ht h⟩

end SchemaContract
