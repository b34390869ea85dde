import SchemaContract.Schema.Lexeme

/-!
Pieces of texts. What the pieces look like, and what may stand behind each of them, is told without
cutting: the first piece of a text is the one that looks right and stands in front of the rest. So a
text is cut into pieces exactly if it is their spellings one after another, and each of them stands
in front of those behind it.
-/
namespace SchemaContract

theorem takeWhile_run {p : Char → Bool} {run rest : List Char} (hrun : ∀ c ∈ run, p c = true)
    (hrest : ∀ c ∈ rest.head?, p c = false) : (run ++ rest).takeWhile p = run := by
  rw [List.takeWhile_append_of_pos hrun]
  cases rest with
  | nil => simp
  | cons c rest => simp [hrest c rfl]

theorem dropWhile_run {p : Char → Bool} {run rest : List Char} (hrun : ∀ c ∈ run, p c = true)
    (hrest : ∀ c ∈ rest.head?, p c = false) : (run ++ rest).dropWhile p = rest := by
  rw [List.dropWhile_append_of_pos hrun]
  cases rest with
  | nil => rfl
  | cons c rest => simp [hrest c rfl]

theorem mem_takeWhile {p : Char → Bool} {cs : List Char} :
    ∀ c ∈ cs.takeWhile p, p c = true :=
  List.all_eq_true.1 List.all_takeWhile

theorem head?_dropWhile {p : Char → Bool} {cs : List Char} :
    ∀ c ∈ (cs.dropWhile p).head?, p c = false := by
  intro c hc
  have h := List.head?_dropWhile_not p cs
  rw [Option.mem_def.1 hc] at h
  exact h

theorem isNameStart_iff {c : Char} :
    isNameStart c = true ↔
      (65 ≤ c.toNat ∧ c.toNat ≤ 90 ∨ 97 ≤ c.toNat ∧ c.toNat ≤ 122) ∨ c = '_' ∨ c = '$' := by
  have hstart : isNameStart c =
      (decide ('A'.val ≤ c.val ∧ c.val ≤ 'Z'.val) ||
        (decide ('a'.val ≤ c.val) && decide (c.val ≤ 'z'.val)) || c == '_' || c == '$') := rfl
  simp only [hstart, Bool.or_eq_true, Bool.and_eq_true, decide_eq_true_eq, beq_iff_eq,
    UInt32.le_iff_toNat_le, or_assoc]
  rfl

theorem isDigit_iff {c : Char} : c.isDigit = true ↔ 48 ≤ c.toNat ∧ c.toNat ≤ 57 := by
  simp only [Char.isDigit, ge_iff_le, Bool.and_eq_true, decide_eq_true_eq, UInt32.le_iff_toNat_le]
  rfl

theorem isNameRest_iff {c : Char} :
    isNameRest c = true ↔ isNameStart c = true ∨ c.isDigit = true := by
  simp only [isNameRest, isNameStart, Char.isAlphanum, Bool.or_eq_true, or_assoc, or_comm,
    or_left_comm]

theorem isNameRest_of_isDigit {c : Char} (h : c.isDigit = true) : isNameRest c = true :=
  isNameRest_iff.2 (.inr h)

theorem isNameRest_of_isNameStart {c : Char} (h : isNameStart c = true) : isNameRest c = true :=
  isNameRest_iff.2 (.inl h)

theorem not_isDigit_of_isNameStart {c : Char} (h : isNameStart c = true) : c.isDigit = false := by
  apply Bool.eq_false_iff.2
  intro hd
  have hd := isDigit_iff.1 hd
  rcases isNameStart_iff.1 h with h | rfl | rfl
  · omega
  · simp at hd
  · simp at hd

theorem not_isBlank_of_isNameRest {c : Char} (h : isNameRest c = true) :
    Text.isBlank c = false := by
  have hn : 48 ≤ c.toNat ∧ c.toNat ≤ 122 ∨ c = '$' := by
    rcases isNameRest_iff.1 h with h | h
    · rcases isNameStart_iff.1 h with h | rfl | rfl
      · omega
      · exact .inl (by decide)
      · exact .inr rfl
    · have h := isDigit_iff.1 h
      omega
  rcases hn with hn | rfl
  · simp [Text.isBlank]
    omega
  · rfl

theorem not_isNameRest_of_isBlank {c : Char} (h : Text.isBlank c = true) :
    isNameRest c = false := by
  apply Bool.eq_false_iff.2
  intro hn
  rw [not_isBlank_of_isNameRest hn] at h
  cases h

theorem Mark.classes_of_ofChar? {c : Char} {m : Mark} (h : Mark.ofChar? c = some m) :
    Text.isBlank c = false ∧ isNameRest c = false ∧ c ≠ '-' ∧ c ≠ '/' ∧ c ≠ '.' ∧ c ≠ '"' := by
  unfold Mark.ofChar? at h
  split at h <;> cases h <;> exact ⟨rfl, rfl, by decide, by decide, by decide, by decide⟩

theorem Mark.ofChar?_of_isNameRest {c : Char} (h : isNameRest c = true) :
    Mark.ofChar? c = none := by
  cases hm : Mark.ofChar? c with
  | none => rfl
  | some m => exact absurd h (by simp [(Mark.classes_of_ofChar? hm).2.1])

namespace Lexeme

/-- The first character of a name, and those behind it. -/
def IsName : List Char → Prop
  | [] => False
  | c :: cs => isNameStart c = true ∧ ∀ d ∈ cs, isNameRest d = true

/-- Digits with at most one point among them. -/
def IsDecimal (cs : List Char) : Prop :=
  ∃ whole, (∀ c ∈ whole, c.isDigit = true) ∧
    (cs = whole ∨
      ∃ fraction, (∀ c ∈ fraction, c.isDigit = true) ∧ cs = whole ++ '.' :: fraction)

/-- The characters that have a meaning behind a backslash, and what they mean. -/
def escapes : List (Char × Char) :=
  [('"', '"'), ('\\', '\\'), ('n', '\n'), ('t', '\t'), ('r', '\r')]

/-- The inside of a quoted text, and the text that it stands for. A backslash in front of a
character without a meaning there stays. -/
inductive Quoted : List Char → List Char → Prop
  | nil : Quoted [] []
  | plain {c : Char} {inside text : List Char} (hq : c ≠ '"') (hb : c ≠ '\\')
      (h : Quoted inside text) : Quoted (c :: inside) (c :: text)
  | escape {c d : Char} {inside text : List Char} (hc : (c, d) ∈ escapes)
      (h : Quoted inside text) : Quoted ('\\' :: c :: inside) (d :: text)
  | kept {c : Char} {inside text : List Char} (hc : ∀ d, (c, d) ∉ escapes)
      (h : Quoted inside text) : Quoted ('\\' :: c :: inside) ('\\' :: c :: text)

theorem cutComment_eq_some_iff {cs inside rest : List Char} :
    cutComment cs = some (inside, rest) ↔
      ∃ body, inside = body ++ ['*', '/'] ∧ cs = inside ++ rest ∧ ¬ ['*', '/'] <:+: body := by
  constructor
  · intro h
    fun_induction cutComment cs generalizing inside rest with
    | case1 => cases h
    | case2 cs =>
      cases h
      exact ⟨[], rfl, rfl, by simp⟩
    | case3 c cs hne ih =>
      obtain ⟨⟨i, r⟩, hc, he⟩ := Option.map_eq_some_iff.1 h
      cases he
      obtain ⟨body, rfl, rfl, hbody⟩ := ih hc
      refine ⟨c :: body, rfl, rfl, ?_⟩
      intro hinfix
      rcases List.infix_cons_iff.1 hinfix with hprefix | hinfix
      · obtain ⟨hstar, tail, rfl⟩ := List.cons_prefix_cons.1 hprefix
        exact hne _ hstar.symm rfl
      · exact hbody hinfix
  · rintro ⟨body, rfl, rfl, hbody⟩
    induction body with
    | nil => rfl
    | cons c body ih =>
      have hne : ∀ es, c = '*' → body ++ ['*', '/'] ++ rest = '/' :: es → False := by
        rintro es rfl he
        cases body with
        | nil => cases he
        | cons d body =>
          cases he
          exact hbody ⟨[], body, rfl⟩
      have hrest := ih fun hinfix => hbody (List.infix_cons_iff.2 (.inr hinfix))
      rw [List.cons_append, List.cons_append, cutComment.eq_3 _ _ hne, hrest]
      rfl

theorem escaped_of_mem {c d : Char} (h : (c, d) ∈ escapes) : escaped c = [d] := by
  simp only [escapes, List.mem_cons, Prod.mk.injEq, List.not_mem_nil, or_false] at h
  rcases h with ⟨rfl, rfl⟩ | ⟨rfl, rfl⟩ | ⟨rfl, rfl⟩ | ⟨rfl, rfl⟩ | ⟨rfl, rfl⟩ <;> rfl

theorem escaped_of_not_mem {c : Char} (h : ∀ d, (c, d) ∉ escapes) : escaped c = ['\\', c] := by
  unfold escaped
  split
  · exact absurd (by decide) (h '"')
  · exact absurd (by decide) (h '\\')
  · exact absurd (by decide) (h '\n')
  · exact absurd (by decide) (h '\t')
  · exact absurd (by decide) (h '\r')
  · rfl

theorem Quoted.unescape_eq {inside text : List Char} (h : Quoted inside text) :
    unescape inside = text := by
  induction h with
  | nil => rfl
  | @plain c inside text hq hb h ih =>
    rw [unescape.eq_2 _ _ fun d ds he _ => hb he, ih]
  | escape hc h ih => rw [unescape, escaped_of_mem hc, ih, List.singleton_append]
  | kept hc h ih =>
    rw [unescape, escaped_of_not_mem hc, ih]
    rfl

/-- Every escape has its meaning or stays, so the inside of a quoted text always stands for a text.
-/
theorem Quoted.of_unescape {c : Char} {inside : List Char} (h : Quoted inside (unescape inside)) :
    Quoted ('\\' :: c :: inside) (unescape ('\\' :: c :: inside)) := by
  rw [unescape]
  by_cases hc : ∃ d, (c, d) ∈ escapes
  · obtain ⟨d, hd⟩ := hc
    rw [escaped_of_mem hd]
    exact .escape hd h
  · rw [escaped_of_not_mem fun d hd => hc ⟨d, hd⟩]
    exact .kept (fun d hd => hc ⟨d, hd⟩) h

theorem cutText_eq_ok_iff {cs inside rest : List Char} :
    cutText cs = .ok (inside, rest) ↔
      cs = inside ++ '"' :: rest ∧ Quoted inside (unescape inside) := by
  constructor
  · intro h
    refine ⟨(cutText_append h).symm, ?_⟩
    fun_induction cutText cs generalizing inside rest with
    | case1 => cases h
    | case2 =>
      cases h
      exact .nil
    | case3 => cases h
    | case4 c cs ih =>
      cases hc : cutText cs with
      | error cause => simp [hc, Except.map] at h
      | ok found =>
        simp only [hc, Except.map, Except.ok.injEq] at h
        cases h
        exact (ih hc).of_unescape
    | case5 c cs hq hs hb ih =>
      cases hc : cutText cs with
      | error cause => simp [hc, Except.map] at h
      | ok found =>
        simp only [hc, Except.map, Except.ok.injEq] at h
        cases h
        have hb : c ≠ '\\' := by
          intro he
          cases cs with
          | nil => exact hs he rfl
          | cons d ds => exact hb d ds he rfl
        rw [unescape.eq_2 _ _ fun d ds he _ => hb he]
        exact .plain hq hb (ih hc)
  · rintro ⟨rfl, h⟩
    generalize unescape inside = text at h
    induction h with
    | nil => rfl
    | plain hq hb h ih =>
      rw [List.cons_append, cutText.eq_5 _ _ hq (fun he _ => hb he) fun _ _ he _ => hb he, ih]
      rfl
    | escape hc h ih | kept hc h ih =>
      rw [List.cons_append, List.cons_append, cutText, ih]
      rfl

theorem cutNumber_eq_iff {cs digits rest : List Char} :
    cutNumber cs = (digits, rest) ↔
      cs = digits ++ rest ∧ IsDecimal digits ∧
        ∀ c ∈ rest.head?, c.isDigit = false ∧ (c = '.' → '.' ∈ digits) := by
  constructor
  · intro h
    have happend := cutNumber_append cs
    rw [h] at happend
    refine ⟨happend.symm, ?_⟩
    unfold cutNumber at h
    have hhead := @head?_dropWhile Char.isDigit cs
    split at h
    · next fraction hd =>
      cases h
      refine ⟨⟨_, mem_takeWhile, .inr ⟨_, mem_takeWhile, rfl⟩⟩, ?_⟩
      intro c hc
      exact ⟨head?_dropWhile c hc, fun _ => by simp⟩
    · next hne =>
      cases h
      refine ⟨⟨_, mem_takeWhile, .inl rfl⟩, ?_⟩
      intro c hc
      refine ⟨hhead c hc, ?_⟩
      rintro rfl
      obtain ⟨tail, htail⟩ := List.head?_eq_some_iff.1 (Option.mem_def.1 hc)
      exact absurd htail (hne tail)
  · rintro ⟨rfl, ⟨whole, hwhole, hdigits⟩, hrest⟩
    have hdigit : ∀ c ∈ rest.head?, c.isDigit = false := fun c hc => (hrest c hc).1
    have hpoint : Char.isDigit '.' = false := by decide
    unfold cutNumber
    rcases hdigits with rfl | ⟨fraction, hfraction, rfl⟩
    · rw [takeWhile_run hwhole hdigit, dropWhile_run hwhole hdigit]
      dsimp only
      split
      · next tail =>
        have hmem := (hrest '.' rfl).2 rfl
        exact absurd (hwhole _ hmem) (by decide)
      · rfl
    · have hfirst : ∀ c ∈ ('.' :: fraction ++ rest).head?, c.isDigit = false := by
        intro c hc
        cases hc
        exact hpoint
      rw [List.append_assoc, takeWhile_run hwhole hfirst, dropWhile_run hwhole hfirst]
      simp only [List.cons_append, takeWhile_run hfraction hdigit, dropWhile_run hfraction hdigit]

/-- A piece in front of a text that begins no longer piece. -/
inductive Stands : Lexeme → List Char → Prop
  | blank {c : Char} {rest : List Char} (hc : Text.isBlank c = true) : Stands ⟨[c], none⟩ rest
  | mark {c : Char} {m : Mark} {rest : List Char} (hm : Mark.ofChar? c = some m) :
      Stands ⟨[c], some (.mark m)⟩ rest
  | lineComment {body rest : List Char} (hbody : '\n' ∉ body)
      (hrest : ∀ c ∈ rest.head?, c = '\n') : Stands ⟨'/' :: '/' :: body, none⟩ rest
  | blockComment {body rest : List Char} (hbody : ¬ ['*', '/'] <:+: body) :
      Stands ⟨'/' :: '*' :: (body ++ ['*', '/']), none⟩ rest
  | dot {rest : List Char} (hrest : ∀ c ∈ rest.head?, c ≠ '.') :
      Stands ⟨['.'], some (.mark .dot)⟩ rest
  | ellipsis {rest : List Char} : Stands ⟨['.', '.', '.'], some (.mark .ellipsis)⟩ rest
  | number {c : Char} {digits rest : List Char} {value : Binary64}
      (hc : c.isDigit = true ∨ c = '-') (hdigits : IsDecimal digits)
      (hrest : ∀ d ∈ rest.head?, d.isDigit = false ∧ (d = '.' → '.' ∈ digits))
      (hvalue : Binary64.ofSpelling? (c :: digits) = some value) :
      Stands ⟨c :: digits, some (.number value)⟩ rest
  | text {inside text rest : List Char} (h : Quoted inside text) :
      Stands ⟨'"' :: (inside ++ ['"']), some (.text (String.ofList text))⟩ rest
  | name {spelling rest : List Char} (h : IsName spelling)
      (hrest : ∀ c ∈ rest.head?, isNameRest c = false) :
      Stands ⟨spelling, some (ofName spelling)⟩ rest

theorem Stands.spelling_ne_nil {piece : Lexeme} {rest : List Char} (h : piece.Stands rest) :
    piece.spelling ≠ [] := by
  cases h with
  | @name spelling _ h =>
    cases spelling with
    | nil => exact h.elim
    | cons => exact List.cons_ne_nil _ _
  | _ => exact List.cons_ne_nil _ _

/-- A piece minds nothing but the character behind it. -/
theorem Stands.of_head {piece : Lexeme} {rest rest' : List Char} (h : piece.Stands rest)
    (hhead : ∀ c ∈ rest'.head?, c ∈ rest.head?) : piece.Stands rest' := by
  cases h with
  | blank hc => exact .blank hc
  | mark hm => exact .mark hm
  | lineComment hbody hrest => exact .lineComment hbody fun c hc => hrest c (hhead c hc)
  | blockComment hbody => exact .blockComment hbody
  | dot hrest => exact .dot fun c hc => hrest c (hhead c hc)
  | ellipsis => exact .ellipsis
  | number hc hdigits hrest hvalue =>
    exact .number hc hdigits (fun d hd => hrest d (hhead d hd)) hvalue
  | text h => exact .text h
  | name h hrest => exact .name h fun c hc => hrest c (hhead c hc)

/-- What no name and no number goes on with may stand behind every piece but a comment that runs to
the end of its line. -/
theorem Stands.of_outside {piece : Lexeme} {rest rest' : List Char} (h : piece.Stands rest)
    (houtside : ∀ c ∈ rest'.head?, isNameRest c = false ∧ c ≠ '.')
    (hline : (∃ c ∈ rest.head?, c ≠ '\n') ∨ ∀ c ∈ rest'.head?, c = '\n') :
    piece.Stands rest' := by
  cases h with
  | blank hc => exact .blank hc
  | mark hm => exact .mark hm
  | lineComment hbody hrest =>
    rcases hline with ⟨c, hc, hne⟩ | hline
    · exact absurd (hrest c hc) hne
    · exact .lineComment hbody hline
  | blockComment hbody => exact .blockComment hbody
  | dot hrest => exact .dot fun c hc => (houtside c hc).2
  | ellipsis => exact .ellipsis
  | number hc hdigits hrest hvalue =>
    refine .number hc hdigits ?_ hvalue
    intro d hd
    obtain ⟨hname, hpoint⟩ := houtside d hd
    refine ⟨?_, fun he => absurd he hpoint⟩
    apply Bool.eq_false_iff.2
    intro hdigit
    rw [isNameRest_of_isDigit hdigit] at hname
    cases hname
  | text h => exact .text h
  | name h hrest => exact .name h fun c hc => (houtside c hc).1

theorem stands_of_first {c : Char} {cs : List Char} {piece : Lexeme} {rest : List Char}
    (h : first c cs = .ok (piece, rest)) : piece.Stands rest := by
  unfold first at h
  split at h
  · next hc =>
    cases h
    exact .blank hc
  split at h
  · next m hm =>
    cases h
    exact .mark hm
  split at h
  · next hc =>
    subst hc
    split at h
    · next ds =>
      cases h
      rw [List.takeWhile_cons_of_pos (by decide), List.dropWhile_cons_of_pos (by decide)]
      refine .lineComment ?_ ?_
      · intro hmem
        have hn := mem_takeWhile _ hmem
        simp at hn
      · intro d hd
        have hn := head?_dropWhile d hd
        simpa using hn
    · next ds =>
      split at h
      · next inside after hcut =>
        cases h
        obtain ⟨body, rfl, -, hbody⟩ := cutComment_eq_some_iff.1 hcut
        exact .blockComment hbody
      · cases h
    · cases h
  split at h
  · next hc =>
    split at h
    · cases h
      exact .ellipsis
    · cases h
    · next _ hdot =>
      cases h
      refine .dot ?_
      rintro d hd rfl
      obtain ⟨tail, htail⟩ := List.head?_eq_some_iff.1 (Option.mem_def.1 hd)
      exact hdot tail htail
  split at h
  · next hc =>
    dsimp only at h
    obtain ⟨-, hdigits, hrest⟩ := cutNumber_eq_iff.1 (Prod.eta (cutNumber cs)).symm
    split at h
    · next value hvalue =>
      cases h
      exact .number hc hdigits hrest hvalue
    · cases h
  split at h
  · next hc =>
    split at h
    · next inside after ht =>
      cases h
      subst hc
      exact .text (cutText_eq_ok_iff.1 ht).2
    · cases h
  split at h
  · next hc =>
    cases h
    exact .name ⟨hc, mem_takeWhile⟩ head?_dropWhile
  · cases h

theorem first_of_isBlank {c : Char} (hc : Text.isBlank c = true) (cs : List Char) :
    first c cs = .ok (⟨[c], none⟩, cs) := by
  unfold first
  rw [if_pos hc]

theorem first_of_ofChar? {c : Char} {m : Mark} (hm : Mark.ofChar? c = some m) (cs : List Char) :
    first c cs = .ok (⟨[c], some (.mark m)⟩, cs) := by
  unfold first
  rw [if_neg (by simp [(Mark.classes_of_ofChar? hm).1]), hm]

theorem first_slash (cs : List Char) :
    first '/' cs =
      match cs with
      | '/' :: _ => .ok (⟨'/' :: cs.takeWhile (· ≠ '\n'), none⟩, cs.dropWhile (· ≠ '\n'))
      | '*' :: cs =>
        match cutComment cs with
        | some (inside, rest) => .ok (⟨'/' :: '*' :: inside, none⟩, rest)
        | none => .error .openComment
      | _ => .error (.strayCharacter '/') := rfl

theorem first_dot (cs : List Char) :
    first '.' cs =
      match cs with
      | '.' :: '.' :: cs => .ok (⟨['.', '.', '.'], some (.mark .ellipsis)⟩, cs)
      | '.' :: _ => .error .twoDots
      | cs => .ok (⟨['.'], some (.mark .dot)⟩, cs) := rfl

theorem first_quote (cs : List Char) :
    first '"' cs =
      match cutText cs with
      | .ok (inside, rest) =>
        .ok (⟨'"' :: inside ++ ['"'], some (.text (String.ofList (unescape inside)))⟩, rest)
      | .error cause => .error cause := rfl

theorem first_number {c : Char} (hc : c.isDigit = true ∨ c = '-') (cs : List Char) :
    first c cs =
      match Binary64.ofSpelling? (c :: (cutNumber cs).1) with
      | some value => .ok (⟨c :: (cutNumber cs).1, some (.number value)⟩, (cutNumber cs).2)
      | none => .error (.badNumber (String.ofList (c :: (cutNumber cs).1))) := by
  have hclasses : Text.isBlank c = false ∧ Mark.ofChar? c = none ∧ c ≠ '/' ∧ c ≠ '.' := by
    rcases hc with hc | rfl
    · have hn := isNameRest_of_isDigit hc
      refine ⟨not_isBlank_of_isNameRest hn, Mark.ofChar?_of_isNameRest hn, ?_, ?_⟩
      · rintro rfl
        cases hc
      · rintro rfl
        cases hc
    · exact ⟨rfl, rfl, by decide, by decide⟩
  obtain ⟨hb, hm, hs, hd⟩ := hclasses
  unfold first
  rw [if_neg (by simp [hb]), hm]
  dsimp only
  rw [if_neg hs, if_neg hd]
  exact if_pos hc

theorem first_name {c : Char} (hc : isNameStart c = true) (cs : List Char) :
    first c cs =
      .ok (⟨c :: cs.takeWhile isNameRest, some (ofName (c :: cs.takeWhile isNameRest))⟩,
        cs.dropWhile isNameRest) := by
  have hn := isNameRest_of_isNameStart hc
  have hd := not_isDigit_of_isNameStart hc
  have hne : ∀ d, isNameStart d = false → c ≠ d := by
    rintro d hd rfl
    exact absurd hc (by simp [hd])
  unfold first
  rw [if_neg (by simp [not_isBlank_of_isNameRest hn]), Mark.ofChar?_of_isNameRest hn]
  dsimp only
  rw [if_neg (hne '/' rfl), if_neg (hne '.' rfl), if_neg (by simp [hd, hne '-' rfl]),
    if_neg (hne '"' rfl), if_pos hc]

theorem first_of_stands {piece : Lexeme} {rest : List Char} (h : piece.Stands rest) {c : Char}
    {cs : List Char} (hcs : piece.spelling = c :: cs) :
    first c (cs ++ rest) = .ok (piece, rest) := by
  cases h with
  | blank hc =>
    cases hcs
    exact first_of_isBlank hc _
  | mark hm =>
    cases hcs
    exact first_of_ofChar? hm _
  | @lineComment body _ hbody hrest =>
    cases hcs
    have hrun : ∀ c ∈ '/' :: body, decide (c ≠ '\n') = true := by
      intro c hc
      apply decide_eq_true
      rintro rfl
      rcases List.mem_cons.1 hc with hc | hc
      · cases hc
      · exact hbody hc
    have hend : ∀ c ∈ rest.head?, decide (c ≠ '\n') = false := by
      intro c hc
      simp [hrest c hc]
    rw [first_slash]
    simp only [takeWhile_run hrun hend, dropWhile_run hrun hend]
    rfl
  | @blockComment body _ hbody =>
    cases hcs
    have hcut : cutComment (body ++ ['*', '/'] ++ rest) = some (body ++ ['*', '/'], rest) :=
      cutComment_eq_some_iff.2 ⟨body, rfl, rfl, hbody⟩
    rw [first_slash, List.cons_append]
    simp only [hcut]
  | dot hrest =>
    cases hcs
    rw [first_dot, List.nil_append]
    cases rest with
    | nil => rfl
    | cons d rest =>
      have hd : d ≠ '.' := hrest d rfl
      simp [hd]
  | ellipsis =>
    cases hcs
    rw [first_dot]
    rfl
  | number hc hdigits hrest hvalue =>
    cases hcs
    rw [first_number hc]
    simp only [cutNumber_eq_iff.2 ⟨rfl, hdigits, hrest⟩, hvalue]
  | @text inside text _ h =>
    cases hcs
    have hcut : cutText (inside ++ '"' :: rest) = .ok (inside, rest) :=
      cutText_eq_ok_iff.2 ⟨rfl, h.unescape_eq.symm ▸ h⟩
    rw [first_quote, List.append_assoc]
    simp only [List.singleton_append, hcut, h.unescape_eq]
    rfl
  | name h hrest =>
    cases hcs
    rw [first_name h.1]
    simp only [takeWhile_run h.2 hrest, dropWhile_run h.2 hrest]

/-- The first piece of a text is the one that stands in front of the rest. -/
theorem first_eq_ok_iff {c : Char} {cs : List Char} {piece : Lexeme} {rest : List Char} :
    first c cs = .ok (piece, rest) ↔ piece.spelling ++ rest = c :: cs ∧ piece.Stands rest := by
  constructor
  · intro h
    exact ⟨first_append h, stands_of_first h⟩
  · rintro ⟨hcs, h⟩
    cases hs : piece.spelling with
    | nil => exact absurd hs h.spelling_ne_nil
    | cons d ds =>
      rw [hs] at hcs
      obtain ⟨rfl, rfl⟩ := List.cons.inj hcs
      exact first_of_stands h hs

end Lexeme
end SchemaContract
