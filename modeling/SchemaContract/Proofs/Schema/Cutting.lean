import SchemaContract.Proofs.Schema.Pieces

/-!
Cutting texts into pieces. Every text is cut up to its end or up to the first fault, and each piece
stands in front of what follows. The tokens are those of the pieces, each where its piece begins.
-/
namespace SchemaContract

namespace Lexeme

def spellings (ps : List Lexeme) : List Char := ps.flatMap spelling

@[simp] theorem spellings_nil : spellings [] = [] := rfl

@[simp] theorem spellings_cons (p : Lexeme) (ps : List Lexeme) :
    spellings (p :: ps) = p.spelling ++ spellings ps := rfl

@[simp] theorem spellings_append (ps qs : List Lexeme) :
    spellings (ps ++ qs) = spellings ps ++ spellings qs :=
  List.flatMap_append

/-- Each piece stands in front of those behind it, and the last in front of the rest. -/
def AllStand : List Lexeme → List Char → Prop
  | [], _ => True
  | p :: ps, rest => p.Stands (spellings ps ++ rest) ∧ AllStand ps rest

theorem allStand_append {ps qs : List Lexeme} {rest : List Char} :
    AllStand (ps ++ qs) rest ↔ AllStand ps (spellings qs ++ rest) ∧ AllStand qs rest := by
  induction ps with
  | nil => simp [AllStand]
  | cons p ps ih => simp only [List.cons_append, AllStand, spellings_append, ih, List.append_assoc,
      and_assoc]

/-- Only the last piece minds what the rest is. -/
theorem AllStand.of_last {ps : List Lexeme} {rest rest' : List Char} (h : AllStand ps rest)
    (hlast : ∀ p ∈ ps, p.Stands rest → p.Stands rest') : AllStand ps rest' := by
  induction ps with
  | nil => trivial
  | cons p ps ih =>
    refine ⟨?_, ih h.2 fun q hq => hlast q (List.mem_cons_of_mem p hq)⟩
    cases ps with
    | nil => exact hlast p List.mem_cons_self h.1
    | cons q qs =>
      have hne := h.2.1.spelling_ne_nil
      apply h.1.of_head
      intro c hc
      cases hs : q.spelling with
      | nil => exact absurd hs hne
      | cons d ds =>
        rw [spellings_cons, hs] at hc ⊢
        exact hc

/-- A text that is cut may end wherever one of its pieces ends. -/
theorem AllStand.at_end {ps : List Lexeme} {rest : List Char} (h : AllStand ps rest) :
    AllStand ps [] :=
  h.of_last fun _ _ hp => hp.of_head nofun

def tokens (piece : Lexeme) (offset : Nat) : List Token :=
  (piece.kind?.map (Token.mk · offset)).toList

def tokensFrom : Nat → List Lexeme → List Token
  | _, [] => []
  | offset, p :: ps => p.tokens offset ++ tokensFrom (offset + Text.byteLength p.spelling) ps

theorem tokensFrom_append (offset : Nat) (ps qs : List Lexeme) :
    tokensFrom offset (ps ++ qs) =
      tokensFrom offset ps ++ tokensFrom (offset + Text.byteLength (spellings ps)) qs := by
  induction ps generalizing offset with
  | nil => rfl
  | cons p ps ih =>
    rw [List.cons_append, tokensFrom, tokensFrom, ih, spellings_cons, Text.byteLength_append,
      List.append_assoc, Nat.add_assoc]

theorem tokensFrom_eq_nil {ps : List Lexeme} (h : ∀ p ∈ ps, p.kind? = none) (offset : Nat) :
    tokensFrom offset ps = [] := by
  induction ps generalizing offset with
  | nil => rfl
  | cons p ps ih =>
    rw [tokensFrom, ih fun q hq => h q (List.mem_cons_of_mem p hq), tokens, h p List.mem_cons_self]
    rfl

/-- Every text is cut into pieces, up to its end or up to a fault. -/
theorem exists_allStand (cs : List Char) :
    ∃ ps rest, spellings ps ++ rest = cs ∧ AllStand ps rest ∧
      ∀ c tail, rest = c :: tail → ∃ cause, first c tail = .error cause := by
  induction hl : cs.length using Nat.strongRecOn generalizing cs with
  | _ l ih =>
    cases cs with
    | nil => exact ⟨[], [], rfl, trivial, nofun⟩
    | cons c cs =>
      cases hf : first c cs with
      | error cause =>
        refine ⟨[], c :: cs, rfl, trivial, ?_⟩
        intro d tail he
        cases he
        exact ⟨cause, hf⟩
      | ok found =>
        have hlt := first_length_lt hf
        obtain ⟨ps, rest, hps, hstand, hrest⟩ := ih _ (hl ▸ hlt) found.2 rfl
        obtain ⟨hcs, hfirst⟩ := first_eq_ok_iff.1 hf
        refine ⟨found.1 :: ps, rest, ?_, ⟨hps.symm ▸ hfirst, hstand⟩, hrest⟩
        rw [spellings_cons, List.append_assoc, hps, hcs]

end Lexeme

open Lexeme

theorem Token.listOf_nil (offset : Nat) : Token.listOf offset [] = .ok [] := by
  rw [Token.listOf.eq_def]

theorem Token.listOf_of_first {c : Char} {cs : List Char} {piece : Lexeme} {rest : List Char}
    (h : first c cs = .ok (piece, rest)) (offset : Nat) :
    Token.listOf offset (c :: cs) =
      (Token.listOf (offset + Text.byteLength piece.spelling) rest).map
        (piece.tokens offset ++ ·) := by
  rw [Token.listOf.eq_def]
  dsimp only
  split
  · next cause he => cases he.symm.trans h
  · next piece' rest' he =>
    cases he.symm.trans h
    unfold Lexeme.tokens
    cases hl : Token.listOf (offset + Text.byteLength piece.spelling) rest <;>
      cases piece.kind? <;> rfl

theorem Token.listOf_of_error {c : Char} {cs : List Char} {cause : SyntaxError.Cause}
    (h : first c cs = .error cause) (offset : Nat) :
    Token.listOf offset (c :: cs) = .error ⟨offset, cause⟩ := by
  rw [Token.listOf.eq_def]
  dsimp only
  split
  · next cause' he =>
    cases he.symm.trans h
    rfl
  · next piece rest he => cases he.symm.trans h

theorem Token.listOf_of_allStand {ps : List Lexeme} {rest : List Char} (h : AllStand ps rest)
    (offset : Nat) :
    Token.listOf offset (spellings ps ++ rest) =
      (Token.listOf (offset + Text.byteLength (spellings ps)) rest).map
        (tokensFrom offset ps ++ ·) := by
  induction ps generalizing offset with
  | nil =>
    change Token.listOf offset rest = (Token.listOf offset rest).map ([] ++ ·)
    cases Token.listOf offset rest <;> rfl
  | cons p ps ih =>
    cases hs : p.spelling with
    | nil => exact absurd hs h.1.spelling_ne_nil
    | cons c cs =>
      have hlist := Token.listOf_of_first (first_of_stands h.1 hs) offset
      rw [spellings_cons, List.append_assoc, tokensFrom, Text.byteLength_append, ← Nat.add_assoc]
      rw [hs, List.cons_append, hlist, ← hs, ih h.2]
      cases Token.listOf (offset + Text.byteLength p.spelling + Text.byteLength (spellings ps))
        rest with
      | error fault => rfl
      | ok ts => exact congrArg Except.ok (List.append_assoc ..).symm

theorem Token.listOf_eq_ok_iff {offset : Nat} {cs : List Char} {ts : List Token} :
    Token.listOf offset cs = .ok ts ↔
      ∃ ps, spellings ps = cs ∧ AllStand ps [] ∧ tokensFrom offset ps = ts := by
  constructor
  · intro h
    obtain ⟨ps, rest, rfl, hstand, hfault⟩ := exists_allStand cs
    rw [Token.listOf_of_allStand hstand] at h
    cases rest with
    | nil =>
      rw [Token.listOf_nil] at h
      cases h
      exact ⟨ps, (List.append_nil _).symm, hstand, (List.append_nil _).symm⟩
    | cons c tail =>
      obtain ⟨cause, hcause⟩ := hfault c tail rfl
      rw [Token.listOf_of_error hcause] at h
      cases h
  · rintro ⟨ps, rfl, hstand, rfl⟩
    have h := Token.listOf_of_allStand hstand offset
    rw [List.append_nil, Token.listOf_nil] at h
    rw [h]
    exact congrArg Except.ok (List.append_nil _)

/-- In front of a fault all is cut. -/
theorem Token.listOf_eq_error {offset : Nat} {cs : List Char} {fault : LexicalFault}
    (h : Token.listOf offset cs = .error fault) :
    ∃ ps rest, spellings ps ++ rest = cs ∧ AllStand ps rest ∧
      fault.offset = offset + Text.byteLength (spellings ps) := by
  obtain ⟨ps, rest, rfl, hstand, hfault⟩ := exists_allStand cs
  refine ⟨ps, rest, rfl, hstand, ?_⟩
  rw [Token.listOf_of_allStand hstand] at h
  cases rest with
  | nil =>
    rw [Token.listOf_nil] at h
    cases h
  | cons c tail =>
    obtain ⟨cause, hcause⟩ := hfault c tail rfl
    rw [Token.listOf_of_error hcause] at h
    cases h
    rfl

theorem Tokens.ofText_eq (cs : List Char) :
    Tokens.ofText cs = (Token.listOf 0 cs).map (Tokens.mk · (Text.byteLength cs)) := by
  unfold Tokens.ofText
  cases Token.listOf 0 cs <;> rfl

theorem Tokens.ofText_eq_ok_iff {cs : List Char} {tokens : Tokens} :
    Tokens.ofText cs = .ok tokens ↔
      ∃ ps, spellings ps = cs ∧ AllStand ps [] ∧
        tokens = ⟨tokensFrom 0 ps, Text.byteLength (spellings ps)⟩ := by
  rw [Tokens.ofText_eq]
  constructor
  · intro h
    cases hl : Token.listOf 0 cs with
    | error fault =>
      rw [hl] at h
      cases h
    | ok ts =>
      rw [hl] at h
      cases h
      obtain ⟨ps, rfl, hstand, rfl⟩ := Token.listOf_eq_ok_iff.1 hl
      exact ⟨ps, rfl, hstand, rfl⟩
  · rintro ⟨ps, rfl, hstand, rfl⟩
    rw [Token.listOf_eq_ok_iff.2 ⟨ps, rfl, hstand, rfl⟩]
    rfl

end SchemaContract
