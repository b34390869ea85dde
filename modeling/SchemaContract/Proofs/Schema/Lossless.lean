import SchemaContract.Proofs.Schema.Gaps

/-!
Nothing of a text is lost when it is cut into tokens. The text is the spellings of the tokens with
white space and comments between them, each token begins where its spelling does, and says what its
spelling means. In front of a fault the text is cut likewise.
-/
namespace SchemaContract

namespace Text

/-- A byte offset at which a character begins, or the end of the text. -/
def IsBoundary (text : List Char) (offset : Nat) : Prop :=
  ∃ before behind, before ++ behind = text ∧ byteLength before = offset

/-- The text before a byte offset and that behind it, unless the offset is no boundary. -/
def splitAt? (offset : Nat) : List Char → Option (List Char × List Char)
  | [] => if offset = 0 then some ([], []) else none
  | c :: cs =>
    if offset = 0 then some ([], c :: cs)
    else if c.utf8Size ≤ offset then
      (splitAt? (offset - c.utf8Size) cs).map fun (before, behind) => (c :: before, behind)
    else none

def slice? (text : List Char) (start stop : Nat) : Option (List Char) :=
  if start ≤ stop then do
    let (_, behind) ← splitAt? start text
    let (inside, _) ← splitAt? (stop - start) behind
    return inside
  else none

theorem splitAt?_append (as bs : List Char) :
    splitAt? (byteLength as) (as ++ bs) = some (as, bs) := by
  induction as with
  | nil => cases bs <;> rfl
  | cons a as ih =>
    have ha : a.utf8Size ≠ 0 := Nat.ne_of_gt a.utf8Size_pos
    have hne : a.utf8Size + byteLength as ≠ 0 := by omega
    rw [byteLength_cons, List.cons_append, splitAt?, if_neg hne,
      if_pos (Nat.le_add_right _ _), Nat.add_sub_cancel_left, ih]
    rfl

theorem slice?_append (as bs cs : List Char) :
    slice? (as ++ (bs ++ cs)) (byteLength as) (byteLength as + byteLength bs) = some bs := by
  unfold slice?
  rw [if_pos (Nat.le_add_right _ _), splitAt?_append, Nat.add_sub_cancel_left]
  change (do
    let (inside, _) ← splitAt? (byteLength bs) (bs ++ cs)
    return inside) = some bs
  rw [splitAt?_append]
  rfl

end Text

open Lexeme

inductive Token.Kind.SpelledAs : Token.Kind → List Char → Prop
  | number {sign digits : List Char} {value : Binary64} (hsign : sign = [] ∨ sign = ['-'])
      (hdigits : IsDecimal digits) (hsome : ∃ c ∈ digits, c.isDigit = true)
      (hvalue : Binary64.ofSpelling? (sign ++ digits) = some value) :
      SpelledAs (.number value) (sign ++ digits)
  | text {inside text : List Char} (h : Quoted inside text) :
      SpelledAs (.text (String.ofList text)) ('"' :: (inside ++ ['"']))
  | isTrue : SpelledAs (.truth true) ['t', 'r', 'u', 'e']
  | isFalse : SpelledAs (.truth false) ['f', 'a', 'l', 's', 'e']
  | name {name : String} (h : IsName name.toList) (htrue : name ≠ "true")
      (hfalse : name ≠ "false") : SpelledAs (.name name) name.toList
  | mark (m : Mark) : SpelledAs (.mark m) m.spelling

/-- No name in the text reaches beyond the word. -/
def IsWhole (before word behind : List Char) : Prop :=
  ∀ x y, x <:+ before → y <+: behind → IsName (x ++ word ++ y) → x = [] ∧ y = []

/-- White space and comments, where the end of the text may end a comment. -/
def IsLastGap (cs : List Char) : Prop :=
  ∃ gap, IsGap gap ∧ (cs = gap ∨ ∃ body, '\n' ∉ body ∧ cs = gap ++ '/' :: '/' :: body)

/-- The tokens that a text says, behind what stands before it. -/
inductive LaidOut : List Char → List Char → List Token → Prop
  | finish {before cs : List Char} (h : IsLastGap cs) : LaidOut before cs []
  | token {before gap word behind : List Char} {kind : Token.Kind} {ts : List Token}
      (hgap : IsGap gap) (hword : kind.SpelledAs word)
      (hwhole : IsWhole (before ++ gap) word behind)
      (h : LaidOut (before ++ gap ++ word) behind ts) :
      LaidOut before (gap ++ word ++ behind) (⟨kind, Text.byteLength (before ++ gap)⟩ :: ts)

namespace Lexeme

theorem IsName.forall_isNameRest {cs : List Char} (h : IsName cs) :
    ∀ c ∈ cs, isNameRest c = true := by
  cases cs with
  | nil => exact h.elim
  | cons c cs => exact List.forall_mem_cons.2 ⟨isNameRest_of_isNameStart h.1, h.2⟩

theorem IsName.ne_nil {cs : List Char} (h : IsName cs) : cs ≠ [] := by
  rintro rfl
  exact h

theorem IsName.of_append {as bs : List Char} (h : IsName (as ++ bs)) (ha : as ≠ []) :
    IsName as := by
  cases as with
  | nil => exact absurd rfl ha
  | cons a as => exact ⟨h.1, fun c hc => h.2 c (List.mem_append_left bs hc)⟩

theorem IsDecimal.cons {c : Char} {digits : List Char} (hc : c.isDigit = true)
    (h : IsDecimal digits) : IsDecimal (c :: digits) := by
  obtain ⟨whole, hwhole, rfl | ⟨fraction, hfraction, rfl⟩⟩ := h
  · exact ⟨c :: digits, List.forall_mem_cons.2 ⟨hc, hwhole⟩, .inl rfl⟩
  · exact ⟨c :: whole, List.forall_mem_cons.2 ⟨hc, hwhole⟩, .inr ⟨fraction, hfraction, rfl⟩⟩

theorem IsDecimal.isDigit_or_point {digits : List Char} (h : IsDecimal digits) :
    ∀ c ∈ digits, c.isDigit = true ∨ c = '.' := by
  intro c hc
  obtain ⟨whole, hwhole, hdigits⟩ := h
  rcases hdigits with rfl | ⟨fraction, hfraction, rfl⟩
  · exact .inl (hwhole c hc)
  · rcases List.mem_append.1 hc with hc | hc
    · exact .inl (hwhole c hc)
    · rcases List.mem_cons.1 hc with rfl | hc
      · exact .inr rfl
      · exact .inl (hfraction c hc)

theorem IsDecimal.exists_digit {digits : List Char} {value : Binary64} (h : IsDecimal digits)
    (hvalue : Binary64.ofSpelling? ('-' :: digits) = some value) :
    ∃ c ∈ digits, c.isDigit = true := by
  obtain ⟨whole, hwhole, hdigits⟩ := h
  cases whole with
  | cons c whole =>
    refine ⟨c, ?_, hwhole c List.mem_cons_self⟩
    rcases hdigits with rfl | ⟨fraction, -, rfl⟩ <;> exact List.mem_cons_self
  | nil =>
    rcases hdigits with rfl | ⟨fraction, hfraction, rfl⟩
    · cases hvalue
    · cases fraction with
      | nil => cases hvalue
      | cons c fraction =>
        exact ⟨c, by simp, hfraction c List.mem_cons_self⟩

theorem Stands.spelledAs {piece : Lexeme} {rest : List Char} {kind : Token.Kind}
    (h : piece.Stands rest) (hkind : piece.kind? = some kind) : kind.SpelledAs piece.spelling := by
  cases h with
  | blank | lineComment | blockComment => cases hkind
  | mark hm =>
    cases hkind
    rw [← Mark.spelling_of_ofChar? hm]
    exact .mark _
  | dot | ellipsis =>
    cases hkind
    exact .mark _
  | @number c digits _ value hc hdigits _ hvalue =>
    cases hkind
    rcases hc with hc | rfl
    · exact .number (.inl rfl) (hdigits.cons hc) ⟨c, List.mem_cons_self, hc⟩ hvalue
    · exact .number (.inr rfl) hdigits (hdigits.exists_digit hvalue) hvalue
  | text h =>
    cases hkind
    exact .text h
  | @name spelling _ h =>
    cases hkind
    have hlist : (String.ofList spelling).toList = spelling := String.toList_ofList
    unfold ofName
    split
    · next htrue =>
      rw [← hlist, htrue]
      exact .isTrue
    · next hfalse =>
      rw [← hlist, hfalse]
      exact .isFalse
    · next htrue hfalse =>
      have hname := Token.Kind.SpelledAs.name (hlist.symm ▸ h) htrue hfalse
      rwa [hlist] at hname

end Lexeme

theorem Token.Kind.SpelledAs.begins {kind : Token.Kind} {word : List Char}
    (h : kind.SpelledAs word) : ∃ c ∈ word.head?, c ≠ '\n' := by
  cases h with
  | @number sign digits value hsign hdigits hsome =>
    rcases hsign with rfl | rfl
    · cases digits with
      | nil => simp at hsome
      | cons c digits =>
        refine ⟨c, rfl, ?_⟩
        rintro rfl
        rcases hdigits.isDigit_or_point '\n' List.mem_cons_self with hc | hc <;> cases hc
    · exact ⟨'-', rfl, by decide⟩
  | text => exact ⟨'"', rfl, by decide⟩
  | isTrue => exact ⟨'t', rfl, by decide⟩
  | isFalse => exact ⟨'f', rfl, by decide⟩
  | @name name h =>
    cases hn : name.toList with
    | nil => exact absurd hn h.ne_nil
    | cons c cs =>
      rw [hn] at h
      refine ⟨c, rfl, ?_⟩
      rintro rfl
      cases h.1
  | mark m => cases m <;> exact ⟨_, rfl, by decide⟩

namespace Lexeme

/-- What is no token stands in front of a gap only as part of one. -/
theorem Stands.isGap {piece : Lexeme} {rest gap : List Char} (h : piece.Stands rest)
    (hkind : piece.kind? = none) (hgap : IsGap gap)
    (hline : (∀ c ∈ rest.head?, c = '\n') → '\n' ∈ gap.head?) : IsGap (piece.spelling ++ gap) := by
  cases h with
  | blank hc => exact .blank hc hgap
  | @blockComment body _ hbody =>
    have hcomment := IsGap.blockComment hbody hgap
    simpa using hcomment
  | lineComment hbody hrest =>
    obtain ⟨cs, rfl⟩ := List.head?_eq_some_iff.1 (hline hrest)
    cases hgap with
    | blank _ hgap => exact .lineComment hbody hgap
  | mark | dot | ellipsis | number | text | name => cases hkind

theorem Stands.isLastGap {piece : Lexeme} {cs : List Char} (h : piece.Stands cs)
    (hkind : piece.kind? = none) (hcs : IsLastGap cs) : IsLastGap (piece.spelling ++ cs) := by
  obtain ⟨gap, hgap, hcs⟩ := hcs
  cases cs with
  | nil =>
    cases h with
    | blank hc => exact ⟨_, .blank hc .nil, .inl rfl⟩
    | blockComment hbody => exact ⟨_, .blockComment hbody .nil, .inl (by simp)⟩
    | lineComment hbody => exact ⟨[], .nil, .inr ⟨_, hbody, List.append_nil _⟩⟩
    | mark | dot | ellipsis | number | text | name => cases hkind
  | cons c cs =>
    have hline : (∀ d ∈ (c :: cs).head?, d = '\n') → '\n' ∈ gap.head? := by
      intro hhead
      obtain rfl : c = '\n' := hhead c rfl
      rcases hcs with rfl | ⟨body, hbody, hcs⟩
      · rfl
      · cases gap with
        | nil => cases hcs
        | cons d gap =>
          cases hcs
          rfl
    refine ⟨piece.spelling ++ gap, h.isGap hkind hgap hline, ?_⟩
    rcases hcs with hcs | ⟨body, hbody, hcs⟩
    · exact .inl (congrArg _ hcs)
    · right
      refine ⟨body, hbody, ?_⟩
      rw [hcs, List.append_assoc]

end Lexeme

theorem LaidOut.behind_piece {before cs : List Char} {ts : List Token} {piece : Lexeme}
    (h : LaidOut (before ++ piece.spelling) cs ts) (hpiece : piece.Stands cs)
    (hkind : piece.kind? = none) : LaidOut before (piece.spelling ++ cs) ts := by
  cases h with
  | finish h => exact .finish (hpiece.isLastGap hkind h)
  | @token _ gap word behind kind ts hgap hword hwhole h =>
    have hline : (∀ c ∈ (gap ++ word ++ behind).head?, c = '\n') → '\n' ∈ gap.head? := by
      intro hhead
      cases gap with
      | nil =>
        obtain ⟨c, hc, hne⟩ := hword.begins
        obtain ⟨cs, rfl⟩ := List.head?_eq_some_iff.1 hc
        exact absurd (hhead c rfl) hne
      | cons c gap => exact congrArg some (hhead c rfl)
    have hbefore : before ++ piece.spelling ++ gap = before ++ (piece.spelling ++ gap) :=
      List.append_assoc ..
    have htext : piece.spelling ++ (gap ++ word ++ behind) =
        piece.spelling ++ gap ++ word ++ behind := by simp only [List.append_assoc]
    rw [hbefore] at hwhole h ⊢
    rw [htext]
    exact .token (hpiece.isGap hkind hgap hline) hword hwhole h

theorem not_isNameStart_of_number {c : Char} {digits : List Char}
    (hc : c.isDigit = true ∨ c = '-') (hdigits : IsDecimal digits) :
    ∀ d ∈ c :: digits, isNameStart d = false := by
  have hdigit {d : Char} (hd : d.isDigit = true) : isNameStart d = false := by
    cases hs : isNameStart d with
    | false => rfl
    | true =>
      rw [not_isDigit_of_isNameStart hs] at hd
      cases hd
  refine List.forall_mem_cons.2 ⟨?_, fun d hd => ?_⟩
  · rcases hc with hc | rfl
    · exact hdigit hc
    · rfl
  · rcases hdigits.isDigit_or_point d hd with hd | rfl
    · exact hdigit hd
    · rfl

def Apart (before cs : List Char) : Prop :=
  ∀ x, x <:+ before → IsName x → ∀ c ∈ cs.head?, isNameRest c = false

theorem apart_nil (cs : List Char) : Apart [] cs := by
  intro x hx hname
  exact absurd (List.suffix_nil.1 hx) hname.ne_nil

namespace Lexeme

theorem IsName.isNameRest_of_suffix {x cs : List Char} {c : Char} (h : IsName x)
    (hx : x <:+ cs ++ [c]) : isNameRest c = true := by
  apply h.forall_isNameRest
  rcases List.suffix_concat_iff.1 hx with rfl | ⟨t, rfl, -⟩
  · exact absurd rfl h.ne_nil
  · simp

/-- No piece ends in a name that goes on behind it. -/
theorem Stands.apart {before rest : List Char} {piece : Lexeme} (h : piece.Stands rest)
    (hbefore : Apart before (piece.spelling ++ rest)) : Apart (before ++ piece.spelling) rest := by
  intro x hx hname c hc
  have hlast (cs : List Char) (d : Char) (hcs : before ++ piece.spelling = cs ++ [d])
      (hd : isNameRest d = false) : isNameRest c = false := by
    rw [hcs] at hx
    have hrest := hname.isNameRest_of_suffix hx
    rw [hd] at hrest
    cases hrest
  cases h with
  | lineComment hbody hrest =>
    rw [hrest c hc]
    rfl
  | name h hrest => exact hrest c hc
  | blank hb => exact hlast before _ rfl (not_isNameRest_of_isBlank hb)
  | mark hm => exact hlast before _ rfl (Mark.classes_of_ofChar? hm).2.1
  | dot => exact hlast before '.' rfl rfl
  | ellipsis => exact hlast (before ++ ['.', '.']) '.' (by simp) rfl
  | @blockComment body _ hbody =>
    exact hlast (before ++ '/' :: '*' :: (body ++ ['*'])) '/' (by simp) rfl
  | @text inside _ _ h => exact hlast (before ++ '"' :: inside) '"' (by simp) rfl
  | @number d digits _ _ hfirst hdigits hrest =>
    -- no name begins in a number, and none goes on into one
    have hstart : ∀ e ∈ d :: digits, isNameStart e = false :=
      not_isNameStart_of_number hfirst hdigits
    obtain ⟨w, hw⟩ := hx
    rcases List.append_eq_append_iff.1 hw with ⟨y, rfl, rfl⟩ | ⟨y, -, hy⟩
    · by_cases hnil : y = []
      · subst hnil
        have hfalse := hstart d List.mem_cons_self
        rw [hname.1] at hfalse
        cases hfalse
      · have hfalse := hbefore y ⟨w, rfl⟩ (hname.of_append hnil) d rfl
        rw [hname.forall_isNameRest d (by simp)] at hfalse
        cases hfalse
    · cases x with
      | nil => exact hname.elim
      | cons e x =>
        have hmem : e ∈ d :: digits := by
          rw [show d :: digits = y ++ e :: x from hy]
          simp
        have hfalse := hstart e hmem
        rw [hname.1] at hfalse
        cases hfalse

theorem Stands.ends_name {piece : Lexeme} {rest : List Char} (h : piece.Stands rest) {c : Char}
    (hc : c ∈ piece.spelling.head?) (hstart : isNameStart c = true) :
    ∀ d ∈ rest.head?, isNameRest d = false := by
  have hrest := isNameRest_of_isNameStart hstart
  cases h with
  | blank hb =>
    cases hc
    rw [not_isNameRest_of_isBlank hb] at hrest
    cases hrest
  | mark hm =>
    cases hc
    rw [(Mark.classes_of_ofChar? hm).2.1] at hrest
    cases hrest
  | lineComment | blockComment | dot | ellipsis | text =>
    cases hc
    cases hstart
  | number hfirst hdigits =>
    cases hc
    rw [not_isNameStart_of_number hfirst hdigits c List.mem_cons_self] at hstart
    cases hstart
  | name h hend => exact hend

/-- No name reaches beyond a piece that it has part of. -/
theorem Stands.isWhole {before rest : List Char} {piece : Lexeme} (h : piece.Stands rest)
    (hbefore : Apart before (piece.spelling ++ rest)) : IsWhole before piece.spelling rest := by
  intro x y hx hy hname
  have hrest := hname.forall_isNameRest
  cases hs : piece.spelling with
  | nil => exact absurd hs h.spelling_ne_nil
  | cons c cs =>
    rw [hs] at hname hbefore hrest
    have hxnil : x = [] := by
      by_contra hne
      rw [List.append_assoc] at hname
      have hfalse := hbefore x hx (hname.of_append hne) c rfl
      rw [hrest c (by simp)] at hfalse
      cases hfalse
    subst hxnil
    refine ⟨rfl, ?_⟩
    cases y with
    | nil => rfl
    | cons d y =>
      obtain ⟨tail, rfl⟩ := hy
      have hfalse := h.ends_name (by rw [hs]; rfl) hname.1 d rfl
      rw [hrest d (by simp)] at hfalse
      cases hfalse

theorem AllStand.laidOut {ps : List Lexeme} (h : AllStand ps []) {before : List Char}
    (hbefore : Apart before (spellings ps)) :
    LaidOut before (spellings ps) (tokensFrom (Text.byteLength before) ps) := by
  induction ps generalizing before with
  | nil => exact .finish ⟨[], .nil, .inl rfl⟩
  | cons p ps ih =>
    obtain ⟨hp, hps⟩ := h
    rw [List.append_nil] at hp
    have hrest := ih hps (hp.apart hbefore)
    rw [Text.byteLength_append] at hrest
    rw [tokensFrom, tokens]
    cases hkind : p.kind? with
    | none => exact hrest.behind_piece hp hkind
    | some kind =>
      have hnil : before ++ [] = before := List.append_nil before
      have hwhole := hp.isWhole hbefore
      rw [← hnil] at hwhole hrest
      have htoken := LaidOut.token .nil (hp.spelledAs hkind) hwhole hrest
      rwa [hnil] at htoken

end Lexeme

theorem LaidOut.offsets {before cs : List Char} {ts : List Token} (h : LaidOut before cs ts) :
    (∀ t ∈ ts, Text.byteLength before ≤ t.offset) ∧
      (ts.map Token.offset ++ [Text.byteLength (before ++ cs)]).Pairwise (· < ·) ∧
      ∀ t ∈ ts, Text.IsBoundary (before ++ cs) t.offset := by
  induction h with
  | finish => exact ⟨nofun, List.pairwise_singleton .., nofun⟩
  | @token before gap word behind kind ts hgap hword hwhole h ih =>
    obtain ⟨hle, hpair, hboundary⟩ := ih
    have htext : before ++ (gap ++ word ++ behind) = before ++ gap ++ word ++ behind := by
      simp only [List.append_assoc]
    have hword : 0 < Text.byteLength word := by
      obtain ⟨c, hc, -⟩ := hword.begins
      obtain ⟨cs, rfl⟩ := List.head?_eq_some_iff.1 hc
      exact Nat.add_pos_left c.utf8Size_pos _
    simp only [Text.byteLength_append] at hle
    rw [htext]
    refine ⟨?_, ?_, ?_⟩
    · refine List.forall_mem_cons.2 ⟨?_, fun t ht => ?_⟩
      · dsimp only
        rw [Text.byteLength_append]
        omega
      · have ht := hle t ht
        omega
    · refine List.pairwise_cons.2 ⟨fun n hn => ?_, hpair⟩
      rcases List.mem_append.1 hn with hn | hn
      · obtain ⟨t, ht, rfl⟩ := List.mem_map.1 hn
        have ht := hle t ht
        dsimp only
        rw [Text.byteLength_append]
        omega
      · rw [List.mem_singleton.1 hn]
        simp only [Text.byteLength_append]
        omega
    · refine List.forall_mem_cons.2 ⟨⟨before ++ gap, word ++ behind, ?_, rfl⟩, hboundary⟩
      simp only [List.append_assoc]

theorem Text.slice?_run (before behind : List Char) {run : List Char} (hne : run ≠ [])
    (hrun : ∀ c ∈ run, c.toNat < 128) :
    slice? (before ++ (run ++ behind)) (byteLength before)
      (byteLength before + byteLength run.dropLast + 1) = some run := by
  have hlast : (run.getLast hne).utf8Size = 1 := by
    rw [Char.utf8Size_eq_one_iff, UInt32.le_iff_toNat_le]
    exact Nat.le_of_lt_succ (hrun _ (List.getLast_mem hne))
  have hlength : byteLength run = byteLength run.dropLast + 1 := by
    conv_lhs => rw [← List.dropLast_append_getLast hne]
    rw [byteLength_append, byteLength_cons, hlast, byteLength_nil]
  rw [Nat.add_assoc, ← hlength]
  exact slice?_append before run behind

theorem toNat_lt_of_isNameRest {c : Char} (h : isNameRest c = true) : c.toNat < 128 := by
  rcases isNameRest_iff.1 h with h | h
  · rcases isNameStart_iff.1 h with h | rfl | rfl
    · omega
    · decide
    · decide
  · have hdigit := isDigit_iff.1 h
    omega

theorem toNat_lt_of_number {c : Char} {digits : List Char} (hc : c.isDigit = true ∨ c = '-')
    (hdigits : IsDecimal digits) : ∀ d ∈ c :: digits, d.toNat < 128 := by
  refine List.forall_mem_cons.2 ⟨?_, fun d hd => ?_⟩
  · rcases hc with hc | rfl
    · exact toNat_lt_of_isNameRest (isNameRest_of_isDigit hc)
    · decide
  · rcases hdigits.isDigit_or_point d hd with hd | rfl
    · exact toNat_lt_of_isNameRest (isNameRest_of_isDigit hd)
    · decide

/-- The characters that are sliced out of a text where a number or a name begins. -/
def Lexeme.sliced? (c : Char) (cs : List Char) : Option (List Char) :=
  if c.isDigit ∨ c = '-' then some (c :: (cutNumber cs).1)
  else if isNameStart c then some (c :: cs.takeWhile isNameRest)
  else none

/-- The run of characters is the piece that is cut off, or is no number. -/
def Lexeme.TakenAs (run : List Char) : Except SyntaxError.Cause (Lexeme × List Char) → Prop
  | .ok (piece, _) => piece.spelling = run
  | .error cause => cause = .badNumber (String.ofList run)

theorem Lexeme.takenAs_sliced {c : Char} {cs run : List Char} (h : sliced? c cs = some run) :
    TakenAs run (first c cs) := by
  unfold sliced? at h
  split at h
  · next hc =>
    cases h
    rw [first_number hc]
    cases Binary64.ofSpelling? (c :: (cutNumber cs).1) <;> rfl
  split at h
  · next hc =>
    cases h
    rw [first_name hc]
    rfl
  · cases h

theorem Lexeme.slice?_sliced {c : Char} {cs run : List Char} (h : sliced? c cs = some run)
    (before : List Char) :
    Text.slice? (before ++ c :: cs) (Text.byteLength before)
      (Text.byteLength before + Text.byteLength run.dropLast + 1) = some run := by
  unfold sliced? at h
  split at h
  · next hc =>
    cases h
    obtain ⟨hcs, hdigits, -⟩ := cutNumber_eq_iff.1 (Prod.eta (cutNumber cs)).symm
    have hslice := Text.slice?_run before (cutNumber cs).2 (List.cons_ne_nil c _)
      (toNat_lt_of_number hc hdigits)
    rwa [List.cons_append, ← hcs] at hslice
  split at h
  · next hc =>
    cases h
    have hrun : ∀ d ∈ c :: cs.takeWhile isNameRest, d.toNat < 128 :=
      List.forall_mem_cons.2 ⟨toNat_lt_of_isNameRest (isNameRest_of_isNameStart hc),
        fun d hd => toNat_lt_of_isNameRest (mem_takeWhile d hd)⟩
    have hslice := Text.slice?_run before (cs.dropWhile isNameRest) (List.cons_ne_nil c _) hrun
    rwa [List.cons_append, List.takeWhile_append_dropWhile] at hslice
  · cases h

/-- A text that is cut is its tokens' spellings and gaps, and the offsets rise from boundary to
boundary. Where the text has a fault, what stands before it is cut. And wherever characters are
sliced out, from the first of them through the last, the text has a slice there. -/
theorem Tokens.ofText_lossless (text : List Char) :
    (∀ tokens, Tokens.ofText text = .ok tokens →
      LaidOut [] text tokens.list ∧ tokens.stop = Text.byteLength text ∧
        (tokens.list.map Token.offset ++ [tokens.stop]).Pairwise (· < ·) ∧
        ∀ t ∈ tokens.list, Text.IsBoundary text t.offset) ∧
      (∀ fault, Tokens.ofText text = .error fault →
        ∃ before behind tokens, before ++ behind = text ∧ Text.byteLength before = fault.offset ∧
          Tokens.ofText before = .ok tokens) ∧
      ∀ before c cs run, before ++ c :: cs = text → sliced? c cs = some run →
        TakenAs run (first c cs) ∧
          Text.slice? text (Text.byteLength before)
            (Text.byteLength before + Text.byteLength run.dropLast + 1) = some run := by
  refine ⟨?_, ?_, ?_⟩
  · intro tokens h
    obtain ⟨ps, rfl, hstand, rfl⟩ := Tokens.ofText_eq_ok_iff.1 h
    have hlaid := hstand.laidOut (apart_nil _)
    obtain ⟨-, hpair, hboundary⟩ := hlaid.offsets
    exact ⟨hlaid, rfl, hpair, hboundary⟩
  · intro fault h
    rw [Tokens.ofText_eq] at h
    cases hl : Token.listOf 0 text with
    | ok ts =>
      rw [hl] at h
      cases h
    | error fault' =>
      rw [hl] at h
      cases h
      obtain ⟨ps, rest, htext, hstand, hoffset⟩ := Token.listOf_eq_error hl
      refine ⟨spellings ps, rest, _, htext, ?_, Tokens.ofText_eq_ok_iff.2
        ⟨ps, rfl, hstand.at_end, rfl⟩⟩
      rw [hoffset, Nat.zero_add]
  · rintro before c cs run rfl h
    exact ⟨takenAs_sliced h, slice?_sliced h before⟩

end SchemaContract
