import Mathlib
import SchemaContract.Proofs.Grammar.ViableProgram
import SchemaContract.Proofs.Schema.Joined
import SchemaContract.Proofs.Schema.Lossless

/-!
Lines and columns tell the characters of a text apart. From one character to the next the position
rises, by lines and then by columns, so no two tokens of a text are at one position, and an error is
about the only one that is at its own.
-/
namespace SchemaContract

variable {text : List Char} {m n : Nat}

namespace Text

theorem isBoundary_append (before behind : List Char) :
    IsBoundary (before ++ behind) (byteLength before) :=
  ⟨before, behind, rfl, rfl⟩

theorem isBoundary_zero (text : List Char) : IsBoundary text 0 := isBoundary_append [] text

theorem isBoundary_byteLength (text : List Char) : IsBoundary text (byteLength text) :=
  ⟨text, [], List.append_nil text, rfl⟩

theorem isBoundary_cons {c : Char} {cs : List Char} :
    IsBoundary (c :: cs) n ↔ n = 0 ∨ ∃ k, IsBoundary cs k ∧ c.utf8Size + k = n := by
  constructor
  · rintro ⟨before, behind, htext, rfl⟩
    cases before with
    | nil => exact .inl rfl
    | cons d before =>
      cases htext
      exact .inr ⟨_, isBoundary_append before behind, rfl⟩
  · rintro (rfl | ⟨_, ⟨before, behind, rfl, rfl⟩, rfl⟩)
    · exact isBoundary_zero _
    · exact isBoundary_append (c :: before) behind

theorem IsBoundary.between (hm : IsBoundary text m) (hn : IsBoundary text n) (h : m < n) :
    ∃ before inside behind, before ++ (inside ++ behind) = text ∧ inside ≠ [] ∧
      byteLength before = m ∧ byteLength (before ++ inside) = n := by
  obtain ⟨before, behind, rfl, rfl⟩ := hm
  obtain ⟨before', behind', htext, rfl⟩ := hn
  rcases List.append_eq_append_iff.1 htext.symm with ⟨inside, rfl, rfl⟩ | ⟨inside, rfl, -⟩
  · refine ⟨before, inside, behind', rfl, ?_, rfl, rfl⟩
    rintro rfl
    simp at h
  · rw [byteLength_append] at h
    omega

/-- A boundary is the next one to itself. -/
theorem IsBoundary.isLeast (h : IsBoundary text n) :
    IsLeast {m | IsBoundary text m ∧ n ≤ m} n :=
  ⟨⟨h, le_rfl⟩, fun _ hm => hm.2⟩

/-- The next boundary, unless it is the front, is found behind the first character: its end if the
offset lies inside it. -/
theorem isLeast_boundary_cons {c : Char} {cs : List Char} (hn : n ≠ 0)
    (h : IsLeast {m | IsBoundary cs m ∧ n - c.utf8Size ≤ m} m) :
    IsLeast {m | IsBoundary (c :: cs) m ∧ n ≤ m} (c.utf8Size + m) := by
  obtain ⟨⟨hm, hle⟩, hleast⟩ := h
  refine ⟨⟨isBoundary_cons.2 (.inr ⟨m, hm, rfl⟩), by omega⟩, ?_⟩
  rintro k ⟨hk, hnk⟩
  rcases isBoundary_cons.1 hk with rfl | ⟨k', hk', rfl⟩
  · omega
  · apply Nat.add_le_add_left
    exact hleast ⟨hk', by omega⟩

end Text

namespace Position

def key (p : Position) : Nat ×ₗ Nat := toLex (p.line, p.column)

theorem key_injective : Function.Injective key := by
  rintro ⟨line, column⟩ ⟨line', column'⟩ h
  cases h
  rfl

instance : PartialOrder Position := PartialOrder.lift key key_injective

theorem lt_iff {p q : Position} :
    p < q ↔ p.line < q.line ∨ p.line = q.line ∧ p.column < q.column :=
  Prod.Lex.lt_iff

theorem lt_step (p : Position) (c : Char) : p < p.step c := by
  rw [lt_iff]
  unfold step
  split <;> dsimp only <;> omega

theorem le_foldl_step (p : Position) (cs : List Char) : p ≤ cs.foldl step p := by
  induction cs generalizing p with
  | nil => exact le_rfl
  | cons c cs ih =>
    apply (p.lt_step c).le.trans
    exact ih (p.step c)

theorem lt_foldl_step (p : Position) {cs : List Char} (h : cs ≠ []) : p < cs.foldl step p := by
  cases cs with
  | nil => exact absurd rfl h
  | cons c cs => exact (p.lt_step c).trans_le (le_foldl_step _ cs)

/-- The position behind the first characters of a text is the one that they lead to. -/
theorem ofOffset_append (before behind : List Char) :
    ofOffset (before ++ behind) (Text.byteLength before) = before.foldl step start :=
  walk_append start before behind

theorem strictMonoOn_ofOffset (text : List Char) :
    StrictMonoOn (ofOffset text) {n | Text.IsBoundary text n} := by
  intro m hm n hn h
  obtain ⟨before, inside, behind, rfl, hne, rfl, rfl⟩ := hm.between hn h
  rw [ofOffset_append, ← List.append_assoc, ofOffset_append, List.foldl_append]
  exact lt_foldl_step _ hne

theorem foldl_step_column (cs : List Char) :
    (cs.foldl step start).column = 1 + (cs.rtakeWhile (· ≠ '\n')).length := by
  induction cs using List.reverseRecOn with
  | nil => rfl
  | append_singleton cs c ih =>
    rw [List.foldl_concat, List.rtakeWhile_concat]
    by_cases hc : c = '\n'
    · simp [hc, step_newline]
    · rw [step, if_neg hc, if_pos (decide_eq_true hc), ih, List.length_append, Nat.add_assoc]
      rfl

theorem foldl_step_start (cs : List Char) :
    cs.foldl step start = ⟨1 + cs.count '\n', 1 + (cs.rtakeWhile (· ≠ '\n')).length⟩ :=
  congrArg₂ Position.mk (foldl_step_line start cs) (foldl_step_column cs)

/-- Inside a character the walk goes on to the character's end. -/
theorem exists_walk_eq (p : Position) (h : n ≤ Text.byteLength text) :
    ∃ m, IsLeast {m | Text.IsBoundary text m ∧ n ≤ m} m ∧ p.walk text n = p.walk text m := by
  induction text generalizing p n with
  | nil =>
    obtain rfl : n = 0 := Nat.le_zero.1 h
    exact ⟨0, (Text.isBoundary_zero []).isLeast, rfl⟩
  | cons c cs ih =>
    by_cases hn : n = 0
    · subst hn
      exact ⟨0, (Text.isBoundary_zero _).isLeast, rfl⟩
    · -- behind the first character all offsets are less by its bytes
      rw [Text.byteLength_cons] at h
      obtain ⟨m, hm, hwalk⟩ := ih (p.step c) (n := n - c.utf8Size) (by omega)
      have hne : c.utf8Size + m ≠ 0 := Nat.ne_of_gt (Nat.add_pos_left c.utf8Size_pos m)
      refine ⟨c.utf8Size + m, Text.isLeast_boundary_cons hn hm, ?_⟩
      rw [walk, walk, if_neg hn, if_neg hne, Nat.add_sub_cancel_left, hwalk]

end Position

example : [0, 1, 2, 3].map (Position.ofOffset ['é', '\n']) =
    [⟨1, 1⟩, ⟨1, 2⟩, ⟨1, 2⟩, ⟨2, 1⟩] := by decide

def Tokens.offsets (tokens : Tokens) : List Nat :=
  tokens.list.map Token.offset ++ [tokens.stop]

/-- What is left of the tokens stands for the first of them, or for the end. -/
theorem Tokens.offsets_eq (tokens : Tokens) :
    tokens.offsets = tokens.list.tails.map (offsetOf tokens.stop) := by
  obtain ⟨ts, stop⟩ := tokens
  unfold offsets
  induction ts with
  | nil => rfl
  | cons t ts ih => exact congrArg (t.offset :: ·) ih

theorem Tokens.offsets_of_ofText {tokens : Tokens} (h : Tokens.ofText text = .ok tokens) :
    tokens.offsets.Pairwise (· < ·) ∧ ∀ n ∈ tokens.offsets, Text.IsBoundary text n := by
  obtain ⟨ps, rfl, hstand, rfl⟩ := Tokens.ofText_eq_ok_iff.1 h
  obtain ⟨-, hpair, hboundary⟩ := (hstand.laidOut (apart_nil _)).offsets
  refine ⟨hpair, fun n hn => ?_⟩
  rcases List.mem_append.1 hn with hn | hn
  · obtain ⟨t, ht, rfl⟩ := List.mem_map.1 hn
    exact hboundary t ht
  · rw [List.mem_singleton.1 hn]
    exact Text.isBoundary_byteLength _

theorem Tokens.positions_pairwise {tokens : Tokens} (h : Tokens.ofText text = .ok tokens) :
    (tokens.offsets.map (Position.ofOffset text)).Pairwise (· < ·) := by
  obtain ⟨hpair, hboundary⟩ := Tokens.offsets_of_ofText h
  refine List.pairwise_map.2 (hpair.imp_of_mem fun hm hn hlt => ?_)
  exact Position.strictMonoOn_ofOffset text (hboundary _ hm) (hboundary _ hn) hlt

/-- No two tokens are at one position. -/
theorem Tokens.eq_of_position_eq {tokens : Tokens} (h : Tokens.ofText text = .ok tokens)
    {us vs : List Token} (hus : us <:+ tokens.list) (hvs : vs <:+ tokens.list)
    (heq : Position.ofOffset text (offsetOf tokens.stop us) =
      Position.ofOffset text (offsetOf tokens.stop vs)) : us = vs := by
  have hpair := Tokens.positions_pairwise h
  rw [Tokens.offsets_eq, List.map_map] at hpair
  exact List.inj_on_of_nodup_map hpair.nodup ((List.mem_tails _ _).2 hus)
    ((List.mem_tails _ _).2 hvs) heq

theorem Grammar.fault_suffix {ts : List Token} {fault : Fault} (h : statements ts = .error fault) :
    fault.rest <:+ ts := by
  obtain ⟨used, -, hts, -⟩ := viable_statements ts fault h
  exact ⟨used, hts.symm⟩

theorem LexicalFault.isBoundary {fault : LexicalFault} (h : Tokens.ofText text = .error fault) :
    Text.IsBoundary text fault.offset := by
  rw [Tokens.ofText_eq] at h
  cases hl : Token.listOf 0 text with
  | ok ts =>
    rw [hl] at h
    cases h
  | error fault' =>
    rw [hl] at h
    cases h
    obtain ⟨ps, rest, rfl, -, hoffset⟩ := Token.listOf_eq_error hl
    rw [hoffset, Nat.zero_add]
    exact Text.isBoundary_append _ rest

theorem Program.ofText_of_lexicalFault {fault : LexicalFault}
    (h : Tokens.ofText text = .error fault) :
    Program.ofText text = .error ⟨.ofOffset text fault.offset, fault.cause⟩ := by
  rw [Program.ofText, h]

theorem Program.fault_of_ofText {tokens : Tokens} {e : SyntaxError}
    (ht : Tokens.ofText text = .ok tokens) (h : Program.ofText text = .error e) :
    ∃ fault, Grammar.statements tokens.list = .error fault ∧
      e = ⟨.ofOffset text (Tokens.offsetOf tokens.stop fault.rest), fault.cause⟩ := by
  rw [Program.ofText, ht] at h
  dsimp only [Program.ofTokens] at h
  cases hs : Grammar.statements tokens.list with
  | ok ss =>
    rw [hs] at h
    cases h
  | error fault =>
    rw [hs] at h
    cases h
    exact ⟨fault, rfl, rfl⟩

/-- From one boundary of a text to the next the position rises. It is told by the newlines before
the boundary and the characters since the last of them, and inside a character it is that of the
next boundary. So the positions of the tokens rise up to that of the end, and an error is about the
one token, or the end, that is at its position. In a text that cannot be cut into tokens it is about
the piece at the one boundary there. -/
theorem Position.ofOffset_identifies (text : List Char) :
    StrictMonoOn (ofOffset text) {n | Text.IsBoundary text n} ∧
      (∀ before behind, before ++ behind = text →
        ofOffset text (Text.byteLength before) =
          ⟨1 + before.count '\n', 1 + (before.rtakeWhile (· ≠ '\n')).length⟩) ∧
      (∀ n ≤ Text.byteLength text, ∃ m,
        IsLeast {m | Text.IsBoundary text m ∧ n ≤ m} m ∧ ofOffset text n = ofOffset text m) ∧
      (∀ tokens, Tokens.ofText text = .ok tokens →
        (tokens.offsets.map (ofOffset text)).Pairwise (· < ·) ∧
          ∀ e, Program.ofText text = .error e →
            ∃ fault, Grammar.statements tokens.list = .error fault ∧ e.cause = fault.cause ∧
              fault.rest <:+ tokens.list ∧
              ∀ behind, behind <:+ tokens.list →
                (ofOffset text (Tokens.offsetOf tokens.stop behind) = e.position ↔
                  behind = fault.rest)) ∧
      ∀ fault, Tokens.ofText text = .error fault →
        Text.IsBoundary text fault.offset ∧
          ∀ e, Program.ofText text = .error e →
            e.cause = fault.cause ∧
              ∀ n, Text.IsBoundary text n → (ofOffset text n = e.position ↔ n = fault.offset) := by
  refine ⟨strictMonoOn_ofOffset text, ?_, ?_, ?_, ?_⟩
  · rintro before behind rfl
    rw [ofOffset_append, foldl_step_start]
  · intro n hn
    exact exists_walk_eq start hn
  · intro tokens ht
    refine ⟨Tokens.positions_pairwise ht, fun e he => ?_⟩
    obtain ⟨fault, hs, rfl⟩ := Program.fault_of_ofText ht he
    have hrest := Grammar.fault_suffix hs
    refine ⟨fault, hs, rfl, hrest, fun behind hbehind => ⟨fun heq => ?_, fun heq => ?_⟩⟩
    · exact Tokens.eq_of_position_eq ht hbehind hrest heq
    · rw [heq]
  · intro fault hf
    have hboundary := LexicalFault.isBoundary hf
    refine ⟨hboundary, fun e he => ?_⟩
    cases (Program.ofText_of_lexicalFault hf).symm.trans he
    refine ⟨rfl, fun n hn => ?_⟩
    exact (strictMonoOn_ofOffset text).eq_iff_eq hn hboundary

/-- Behind `import "é"` a semicolon is missing. The fault is at the name on the next line, and at no
other token. The second text cannot be cut. Its fault is at the last character, and nowhere else. -/
theorem Position.ofOffset_identifies_import :
    let source := "import \"é\"\n  model"
    let tokens : Tokens := ⟨[⟨.name "import", 0⟩, ⟨.text "é", 7⟩, ⟨.name "model", 14⟩], 19⟩
    let stray := "// é\n é"
    Tokens.ofText source.toList = .ok tokens ∧
      Program.ofText source.toList = .error ⟨⟨2, 3⟩, .expected .semicolon⟩ ∧
      (∀ behind, behind <:+ tokens.list →
        (ofOffset source.toList (Tokens.offsetOf 19 behind) = ⟨2, 3⟩ ↔
          behind = [⟨.name "model", 14⟩])) ∧
      Tokens.ofText stray.toList = .error ⟨7, .strayCharacter 'é'⟩ ∧
      Program.ofText stray.toList = .error ⟨⟨2, 2⟩, .strayCharacter 'é'⟩ ∧
      ∀ n, Text.IsBoundary stray.toList n → (ofOffset stray.toList n = ⟨2, 2⟩ ↔ n = 7) := by
  intro source tokens stray
  have ht : Tokens.ofText source.toList = .ok tokens := by cbv
  have he : Program.ofText source.toList = .error ⟨⟨2, 3⟩, .expected .semicolon⟩ := by cbv
  have hs : Grammar.statements tokens.list =
      .error ⟨.expected .semicolon, [⟨.name "model", 14⟩]⟩ := by cbv
  have hstray : Tokens.ofText stray.toList = .error ⟨7, .strayCharacter 'é'⟩ := by cbv
  have hfault : Program.ofText stray.toList = .error ⟨⟨2, 2⟩, .strayCharacter 'é'⟩ := by cbv
  obtain ⟨-, -, -, htokens, -⟩ := Position.ofOffset_identifies source.toList
  obtain ⟨-, -, -, -, hcharacters⟩ := Position.ofOffset_identifies stray.toList
  obtain ⟨fault, hfound, -, -, hiff⟩ := (htokens tokens ht).2 _ he
  cases hs.symm.trans hfound
  exact ⟨ht, he, hiff, hstray, hfault, ((hcharacters _ hstray).2 _ hfault).2⟩

end SchemaContract
