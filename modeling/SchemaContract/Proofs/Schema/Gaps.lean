import Mathlib
import SchemaContract.Engine.Toolchain
import SchemaContract.Proofs.Schema.Joined

/-!
White space and comments between tokens. In front of every token there may be as much of it as one
likes: the pieces before end where they ended, and the tokens are the same, only later. So the
program is the same, and so is the contract.
-/
namespace SchemaContract

/-- White space and comments that have ended. -/
inductive IsGap : List Char → Prop
  | nil : IsGap []
  | blank {c : Char} {cs : List Char} (hc : Text.isBlank c = true) (h : IsGap cs) : IsGap (c :: cs)
  | lineComment {body cs : List Char} (hbody : '\n' ∉ body) (h : IsGap cs) :
      IsGap ('/' :: '/' :: (body ++ '\n' :: cs))
  | blockComment {body cs : List Char} (hbody : ¬ ['*', '/'] <:+: body) (h : IsGap cs) :
      IsGap ('/' :: '*' :: (body ++ '*' :: '/' :: cs))

namespace IsGap

open Lexeme

variable {gap : List Char}

theorem outside (h : IsGap gap) : ∀ c ∈ gap.head?, isNameRest c = false ∧ c ≠ '.' := by
  intro c hc
  cases h with
  | nil => cases hc
  | blank hb h =>
    cases hc
    refine ⟨not_isNameRest_of_isBlank hb, ?_⟩
    rintro rfl
    cases hb
  | lineComment hbody h | blockComment hbody h =>
    cases hc
    exact ⟨rfl, by decide⟩

theorem exists_allStand (h : IsGap gap) :
    ∃ ms, spellings ms = gap ∧ (∀ m ∈ ms, m.kind? = none) ∧ ∀ rest, AllStand ms rest := by
  induction h with
  | nil => exact ⟨[], rfl, nofun, fun _ => trivial⟩
  | @blank c cs hc h ih =>
    obtain ⟨ms, rfl, hms, hstand⟩ := ih
    exact ⟨⟨[c], none⟩ :: ms, rfl, List.forall_mem_cons.2 ⟨rfl, hms⟩,
      fun rest => ⟨.blank hc, hstand rest⟩⟩
  | @lineComment body cs hbody h ih =>
    obtain ⟨ms, rfl, hms, hstand⟩ := ih
    refine ⟨⟨'/' :: '/' :: body, none⟩ :: ⟨['\n'], none⟩ :: ms, rfl,
      List.forall_mem_cons.2 ⟨rfl, List.forall_mem_cons.2 ⟨rfl, hms⟩⟩, fun rest => ?_⟩
    refine ⟨.lineComment hbody ?_, .blank rfl, hstand rest⟩
    intro c hc
    cases hc
    rfl
  | @blockComment body cs hbody h ih =>
    obtain ⟨ms, rfl, hms, hstand⟩ := ih
    refine ⟨⟨'/' :: '*' :: (body ++ ['*', '/']), none⟩ :: ms, ?_,
      List.forall_mem_cons.2 ⟨rfl, hms⟩, fun rest => ⟨.blockComment hbody, hstand rest⟩⟩
    simp

end IsGap

namespace Lexeme

theorem Stands.head_not_blank {piece : Lexeme} {rest : List Char} (h : piece.Stands rest)
    (hkind : piece.kind? ≠ none) : ∀ c ∈ piece.spelling.head?, Text.isBlank c = false := by
  intro c hc
  cases h with
  | blank | lineComment | blockComment => exact absurd rfl hkind
  | mark hm =>
    cases hc
    exact (Mark.classes_of_ofChar? hm).1
  | dot | ellipsis | text =>
    cases hc
    rfl
  | number hfirst =>
    cases hc
    rcases hfirst with hdigit | rfl
    · exact not_isBlank_of_isNameRest (isNameRest_of_isDigit hdigit)
    · rfl
  | @name spelling _ h =>
    cases spelling with
    | nil => exact h.elim
    | cons =>
      cases hc
      exact not_isBlank_of_isNameRest (isNameRest_of_isNameStart h.1)

/-- What is cut off in front of a token is cut off as well in front of a gap. -/
theorem AllStand.before_gap {ps : List Lexeme} {piece : Lexeme} {gap rest : List Char}
    (h : AllStand ps (piece.spelling ++ rest)) (hpiece : piece.Stands rest)
    (hkind : piece.kind? ≠ none) (hgap : IsGap gap) :
    AllStand ps (gap ++ (piece.spelling ++ rest)) := by
  apply h.of_last
  intro p _ hp
  cases gap with
  | nil => exact hp
  | cons c gap =>
    apply hp.of_outside
    · intro d hd
      exact hgap.outside d hd
    · left
      -- a comment that runs to the end of its line is not what stands in front of a token
      cases hs : piece.spelling with
      | nil => exact absurd hs hpiece.spelling_ne_nil
      | cons d ds =>
        refine ⟨d, rfl, ?_⟩
        rintro rfl
        have hblank := hpiece.head_not_blank hkind '\n' (by rw [hs]; rfl)
        cases hblank

theorem tokensFrom_add (offset k : Nat) (ps : List Lexeme) :
    tokensFrom (offset + k) ps = Grammar.later k (tokensFrom offset ps) := by
  induction ps generalizing offset with
  | nil => rfl
  | cons p ps ih =>
    rw [tokensFrom, tokensFrom, tokens_add, Nat.add_right_comm, ih]
    exact List.map_append.symm

theorem exists_piece {ps : List Lexeme} {offset i : Nat} (hi : i < (tokensFrom offset ps).length) :
    ∃ before piece behind, ps = before ++ piece :: behind ∧ piece.kind? ≠ none ∧
      (tokensFrom offset before).length = i := by
  induction ps generalizing offset i with
  | nil => cases hi
  | cons p ps ih =>
    rw [tokensFrom, List.length_append] at hi
    cases hk : p.kind? with
    | none =>
      have htokens : p.tokens offset = [] := by simp [tokens, hk]
      rw [htokens, List.length_nil, Nat.zero_add] at hi
      obtain ⟨before, piece, behind, rfl, hpiece, hlength⟩ := ih hi
      refine ⟨p :: before, piece, behind, rfl, hpiece, ?_⟩
      rw [tokensFrom, htokens, List.nil_append, hlength]
    | some kind =>
      have htokens : p.tokens offset = [⟨kind, offset⟩] := by simp [tokens, hk]
      rw [htokens, List.length_singleton] at hi
      cases i with
      | zero => exact ⟨[], p, ps, rfl, by simp [hk], rfl⟩
      | succ i =>
        have hlt : i < (tokensFrom (offset + Text.byteLength p.spelling) ps).length := by omega
        obtain ⟨before, piece, behind, rfl, hpiece, hlength⟩ := ih hlt
        refine ⟨p :: before, piece, behind, rfl, hpiece, ?_⟩
        rw [tokensFrom, htokens, List.length_append, hlength, List.length_singleton,
          Nat.add_comm]

end Lexeme

open Lexeme

/-- A gap in front of a token moves that token and those behind it, and does nothing else. -/
theorem Tokens.ofText_gap {text gap : List Char} {tokens : Tokens}
    (h : Tokens.ofText text = .ok tokens) (hgap : IsGap gap) (i : Fin tokens.list.length) :
    ∃ before behind, before ++ behind = text ∧ Text.byteLength before = tokens.list[i].offset ∧
      Tokens.ofText (before ++ gap ++ behind) =
        .ok ⟨tokens.list.take i ++ Grammar.later (Text.byteLength gap) (tokens.list.drop i),
          tokens.stop + Text.byteLength gap⟩ := by
  obtain ⟨ps, rfl, hstand, rfl⟩ := Tokens.ofText_eq_ok_iff.1 h
  obtain ⟨i, hi⟩ := i
  obtain ⟨before, piece, behind, rfl, hpiece, hlength⟩ := exists_piece hi
  obtain ⟨ms, rfl, hms, hmstand⟩ := hgap.exists_allStand
  obtain ⟨hbefore, hbehind⟩ := allStand_append.1 hstand
  rw [List.append_nil, spellings_cons] at hbefore
  have hpieces : AllStand (before ++ (ms ++ piece :: behind)) [] := by
    refine allStand_append.2 ⟨?_, allStand_append.2 ⟨hmstand _, hbehind⟩⟩
    rw [spellings_append, List.append_nil, spellings_cons]
    refine hbefore.before_gap ?_ hpiece hgap
    have hfirst := hbehind.1
    rwa [List.append_nil] at hfirst
  have htokens : tokensFrom 0 (before ++ piece :: behind) =
      tokensFrom 0 before ++ tokensFrom (Text.byteLength (spellings before)) (piece :: behind) := by
    rw [tokensFrom_append, Nat.zero_add]
  have hmoved : tokensFrom 0 (before ++ (ms ++ piece :: behind)) =
      tokensFrom 0 before ++ Grammar.later (Text.byteLength (spellings ms))
        (tokensFrom (Text.byteLength (spellings before)) (piece :: behind)) := by
    rw [tokensFrom_append, tokensFrom_append, tokensFrom_eq_nil hms, List.nil_append, Nat.zero_add,
      tokensFrom_add]
  refine ⟨spellings before, spellings (piece :: behind), (spellings_append _ _).symm, ?_, ?_⟩
  · obtain ⟨kind, hkind⟩ := Option.ne_none_iff_exists'.1 hpiece
    rw [tokensFrom, tokens, hkind] at htokens
    exact congrArg Token.offset (List.getElem_of_append htokens hlength).symm
  · refine Tokens.ofText_eq_ok_iff.2 ⟨before ++ (ms ++ piece :: behind), ?_, hpieces, ?_⟩
    · simp only [spellings_append, List.append_assoc]
    · simp only [htokens, List.take_left' hlength, List.drop_left' hlength, hmoved,
        spellings_append, Text.byteLength_append]
      congr 1
      omega

namespace Grammar

theorem statements_congr {ts us : List Token} (h : ts.map Token.kind = us.map Token.kind) :
    (statements ts).mapError Fault.cause = (statements us).mapError Fault.cause := by
  have hcause (vs : List Token) :
      (statements (moved (fun _ => 0) vs)).mapError Fault.cause =
        (statements vs).mapError Fault.cause := by
    rw [statements_moved]
    cases statements vs <;> rfl
  have hmoved (vs : List Token) :
      moved (fun _ => 0) vs = (vs.map Token.kind).map fun kind => ⟨kind, 0⟩ := by
    rw [List.map_map]
    rfl
  rw [← hcause ts, ← hcause us, hmoved, hmoved, h]

theorem map_kind_later (k : Nat) (ts : List Token) :
    (later k ts).map Token.kind = ts.map Token.kind := by
  unfold later moved
  rw [List.map_map]
  rfl

end Grammar

theorem Program.ofText_congr {as bs : List Char} {ts us : Tokens} (ha : Tokens.ofText as = .ok ts)
    (hb : Tokens.ofText bs = .ok us) (h : ts.list.map Token.kind = us.list.map Token.kind) :
    (Program.ofText as).mapError SyntaxError.cause =
      (Program.ofText bs).mapError SyntaxError.cause := by
  have hcause {cs : List Char} {tokens : Tokens} (hc : Tokens.ofText cs = .ok tokens) :
      (Program.ofText cs).mapError SyntaxError.cause =
        ((Grammar.statements tokens.list).mapError Grammar.Fault.cause).map Program.mk := by
    unfold Program.ofText Program.ofTokens
    rw [hc]
    dsimp only
    cases Grammar.statements tokens.list <;> rfl
  rw [hcause ha, hcause hb, Grammar.statements_congr h]

def Failure.placeless : Failure → Failure
  | syntaxError error => syntaxError ⟨.start, error.cause⟩
  | failure => failure

theorem contractOfSource_congr {s t : String}
    (h : (Program.ofSource s).mapError SyntaxError.cause =
      (Program.ofSource t).mapError SyntaxError.cause) (policy : Policy) :
    (contractOfSource policy s).mapError Failure.placeless =
      (contractOfSource policy t).mapError Failure.placeless := by
  unfold contractOfSource
  cases hs : Program.ofSource s with
  | error e =>
    cases ht : Program.ofSource t with
    | error e' =>
      rw [hs, ht] at h
      have hcause : e.cause = e'.cause := Except.error.inj h
      simp only [Except.mapError, Failure.placeless, hcause]
    | ok p =>
      rw [hs, ht] at h
      cases h
  | ok p =>
    cases ht : Program.ofSource t with
    | error e' =>
      rw [hs, ht] at h
      cases h
    | ok q =>
      rw [hs, ht] at h
      cases h
      rfl

/-- White space and comments in front of a token move it and the tokens behind it. The program is
the same, or the same is wrong with it, and so is the contract. -/
theorem Program.ofSource_gap {source gap : String} {tokens : Tokens}
    (h : Tokens.ofText source.toList = .ok tokens) (hgap : IsGap gap.toList)
    (i : Fin tokens.list.length) :
    ∃ before behind : String, before ++ behind = source ∧
      Text.byteLength before.toList = tokens.list[i].offset ∧
      Tokens.ofText (before ++ gap ++ behind).toList =
        .ok ⟨tokens.list.take i ++
            Grammar.later (Text.byteLength gap.toList) (tokens.list.drop i),
          tokens.stop + Text.byteLength gap.toList⟩ ∧
      (Program.ofSource (before ++ gap ++ behind)).mapError SyntaxError.cause =
        (Program.ofSource source).mapError SyntaxError.cause ∧
      ∀ policy, (contractOfSource policy (before ++ gap ++ behind)).mapError Failure.placeless =
        (contractOfSource policy source).mapError Failure.placeless := by
  obtain ⟨before, behind, htext, hoffset, htokens⟩ := Tokens.ofText_gap h hgap i
  have hlist : (String.ofList before ++ gap ++ String.ofList behind).toList =
      before ++ gap.toList ++ behind := by simp
  rw [← hlist] at htokens
  have hprogram := Program.ofText_congr htokens h (by
    rw [List.map_append, Grammar.map_kind_later, ← List.map_append, List.take_append_drop])
  refine ⟨String.ofList before, String.ofList behind, ?_, ?_, htokens, hprogram,
    contractOfSource_congr hprogram⟩
  · rw [← String.ofList_append, htext, String.ofList_toList]
  · rw [String.toList_ofList, hoffset]

theorem Program.ofSource_gap_comment :
    Tokens.ofText "alias A=b.c;".toList =
        .ok ⟨[⟨.name "alias", 0⟩, ⟨.name "A", 6⟩, ⟨.mark .equals, 7⟩, ⟨.name "b", 8⟩,
          ⟨.mark .dot, 9⟩, ⟨.name "c", 10⟩, ⟨.mark .semicolon, 11⟩], 12⟩ ∧
      ∃ before behind : String, before ++ behind = "alias A=b.c;" ∧
        Text.byteLength before.toList = 9 ∧
        Tokens.ofText (before ++ "// é\n" ++ behind).toList =
          .ok ⟨[⟨.name "alias", 0⟩, ⟨.name "A", 6⟩, ⟨.mark .equals, 7⟩, ⟨.name "b", 8⟩,
            ⟨.mark .dot, 15⟩, ⟨.name "c", 16⟩, ⟨.mark .semicolon, 17⟩], 18⟩ ∧
        (Program.ofSource (before ++ "// é\n" ++ behind)).mapError SyntaxError.cause =
          (Program.ofSource "alias A=b.c;").mapError SyntaxError.cause ∧
        ∀ policy, (contractOfSource policy (before ++ "// é\n" ++ behind)).mapError
            Failure.placeless =
          (contractOfSource policy "alias A=b.c;").mapError Failure.placeless := by
  have htokens : Tokens.ofText "alias A=b.c;".toList =
      .ok ⟨[⟨.name "alias", 0⟩, ⟨.name "A", 6⟩, ⟨.mark .equals, 7⟩, ⟨.name "b", 8⟩,
        ⟨.mark .dot, 9⟩, ⟨.name "c", 10⟩, ⟨.mark .semicolon, 11⟩], 12⟩ := by cbv
  have hgap : IsGap "// é\n".toList := by
    have hlist : "// é\n".toList = '/' :: '/' :: ([' ', 'é'] ++ '\n' :: []) := by cbv
    rw [hlist]
    exact .lineComment (by decide) .nil
  exact ⟨htokens, Program.ofSource_gap htokens hgap ⟨4, by decide⟩⟩

end SchemaContract
