import Mathlib.Logic.Relation
import SchemaContract.Proofs.Grammar.Gives
import SchemaContract.Proofs.Grammar.Declared
import SchemaContract.Proofs.Walk.Rules

/-!
Walks that follow a reading. From the first of the tokens that are left a walk comes to where the
reading comes to, with the same value or the same fault. On the way it stays inside the cells, and
enters each rule behind its caller or where the caller leads to it. There is one lemma for each
kind of step; rules are put together from these. What is on record of a walk depends on neither the
record that it begins with nor, but for the first entry, who enters it.
-/
namespace SchemaContract

open Grammar (Fault mark? optionalMark optionalWord MemberList)

namespace Walk

variable {α β : Type} {a b : Nat}

/-- A rule is entered further on than its caller, or where its caller was and led to by it. -/
def Entry.Precedes (caller callee : Entry) : Prop :=
  caller.index < callee.index ∨ caller.index = callee.index ∧ callee.rule ∈ caller.rule.leads

/-- What may be on record of a part of an entry: indices inside the cells, and rules in their order,
all of them within the entry. -/
def Event.Sound (tokens : Tokens) (outer : Entry) : Event → Prop
  | stands index => index < tokens.cells.length
  | enters caller callee =>
    caller.Precedes callee ∧ Relation.TransGen Entry.Precedes outer callee

/-- The cell where some last tokens begin. -/
def cellOf (tokens : Tokens) : List Token → Cell
  | [] => ⟨none, tokens.stop⟩
  | t :: _ => ⟨some t.kind, t.offset⟩

/-- What a reading leaves. -/
def left : Except Fault (Found Token a α) → List Token
  | .ok found => found.rest
  | .error fault => fault.rest

/-- How a walk ends that comes to the end of a reading. -/
def ending (text : List Char) (tokens : Tokens) :
    Except Fault (Found Token a α) → Except Halt α
  | .ok found => .ok found.value
  | .error fault =>
    .error (.fault ⟨.ofOffset text (Tokens.offsetOf tokens.stop fault.rest), fault.cause⟩)

/-- From the tokens, if they are the last ones, a part of an entry ends where and as the reading
does. -/
def Follows (text : List Char) (tokens : Tokens) (caller : Entry) (w : Walk α) (ts : List Token)
    (reading : Except Fault (Found Token a α)) : Prop :=
  ts <:+ tokens.list → left reading <:+ ts ∧
    ∃ events, (∀ e ∈ events, e.Sound tokens caller) ∧
      ∀ record, w.outcome ⟨text, tokens.cells⟩ ⟨tokens.list.length - ts.length, record⟩ =
        some (ending text tokens reading,
          ⟨tokens.list.length - (left reading).length, record ++ events⟩)

variable {text : List Char} {tokens : Tokens} {caller : Entry} {ts us rest : List Token}

theorem outcome_bind (w : Walk α) (f : α → Walk β) (ground : Ground) (s : State) :
    (w >>= f).outcome ground s = (w.outcome ground s).bind fun
      | (.ok v, s) => (f v).outcome ground s
      | (.error halt, s) => some (.error halt, s) := by
  unfold outcome
  simp only [ReaderT.run_bind, ExceptT.run_bind, StateT.run_bind]
  rcases ((w.run ground).run).run s with _ | ⟨_ | v, s⟩ <;> rfl

theorem outcome_read (ground : Ground) (s : State) :
    (read : Walk Ground).outcome ground s = some (.ok ground, s) :=
  rfl

theorem outcome_get (ground : Ground) (s : State) :
    (get : Walk State).outcome ground s = some (.ok s, s) :=
  rfl

theorem outcome_pure (v : α) (ground : Ground) (s : State) :
    (pure v : Walk α).outcome ground s = some (.ok v, s) :=
  rfl

theorem outcome_advance (distance : Nat) (ground : Ground) (s : State) :
    (advance distance).outcome ground s =
      some (.ok (), ⟨s.index + distance, s.record ++ [.stands (s.index + distance)]⟩) :=
  rfl

theorem outcome_enter (caller : Entry) (rule : Rule) (ground : Ground) (s : State) :
    (enter caller rule).outcome ground s =
      some (.ok ⟨rule, s.index⟩, ⟨s.index, s.record ++ [.enters caller ⟨rule, s.index⟩]⟩) :=
  rfl

theorem Follows.bind {w : Walk α} {f : α → Walk β} {x : Except Fault (Found Token a α)}
    {g : Found Token a α → Except Fault (Found Token b β)}
    (h : Follows text tokens caller w ts x)
    (hf : ∀ v rest h, x = .ok ⟨v, rest, h⟩ →
      Follows text tokens caller (f v) rest (g ⟨v, rest, h⟩)) :
    Follows text tokens caller (w >>= f) ts (x >>= g) := by
  intro hts
  obtain ⟨hleft, events, hsound, hw⟩ := h hts
  cases x with
  | error fault =>
    refine ⟨hleft, events, hsound, fun record => ?_⟩
    rw [outcome_bind, hw]
    rfl
  | ok found =>
    obtain ⟨v, rest, hlt⟩ := found
    obtain ⟨hleft', events', hsound', hf⟩ := hf v rest hlt rfl (hleft.trans hts)
    refine ⟨hleft'.trans hleft, events ++ events', ?_, fun record => ?_⟩
    · intro e he
      rcases List.mem_append.1 he with he | he
      · exact hsound e he
      · exact hsound' e he
    · rw [outcome_bind, hw, ← List.append_assoc]
      exact hf (record ++ events)

/-- Behind a step that the reading does not have. -/
theorem Follows.behind {w : Walk α} {f : α → Walk β} {v : α} {h : us.length < a}
    {reading : Except Fault (Found Token b β)}
    (hw : Follows text tokens caller w ts (.ok ⟨v, us, h⟩))
    (hf : Follows text tokens caller (f v) us reading) :
    Follows text tokens caller (w >>= f) ts reading := by
  refine hw.bind (g := fun _ => reading) fun v' rest h' he => ?_
  cases he
  exact hf

/-- What a step that succeeds has to show. -/
theorem follows_of_outcome {w : Walk α} {v : α} {h : us.length < a} (events : List Event)
    (hus : us <:+ ts)
    (hw : ts <:+ tokens.list → ∀ record,
      w.outcome ⟨text, tokens.cells⟩ ⟨tokens.list.length - ts.length, record⟩ =
        some (.ok v, ⟨tokens.list.length - us.length, record ++ events⟩))
    (hsound : ts <:+ tokens.list → ∀ e ∈ events, e.Sound tokens caller) :
    Follows text tokens caller w ts (.ok ⟨v, us, h⟩) :=
  fun hts => ⟨hus, events, hsound hts, hw hts⟩

theorem Follows.pure {v : α} {h : ts.length < a} :
    Follows text tokens caller (pure v) ts (.ok ⟨v, ts, h⟩) :=
  follows_of_outcome [] List.suffix_rfl (fun _ record => by rw [List.append_nil, outcome_pure])
    (by simp)

theorem Follows.map {w : Walk α} {f : α → β} {x : Except Fault (Found Token a α)}
    {g : Found Token a α → Found Token b β} (h : Follows text tokens caller w ts x)
    (hg : ∀ found, (g found).value = f found.value ∧ (g found).rest = found.rest) :
    Follows text tokens caller (f <$> w) ts (x >>= fun found => .ok (g found)) := by
  rw [map_eq_pure_bind]
  refine h.bind fun v rest hlt _ => ?_
  obtain ⟨hv, hr⟩ := hg ⟨v, rest, hlt⟩
  generalize g ⟨v, rest, hlt⟩ = found at hv hr
  obtain ⟨w', rest', hlt'⟩ := found
  cases hv
  cases hr
  exact .pure

/-- Whatever bound a reading has. -/
theorem Follows.kept {w : Walk α} {x : Except Fault (Found Token a α)}
    {g : Found Token a α → Found Token b α} (h : Follows text tokens caller w ts x)
    (hg : ∀ found, (g found).value = found.value ∧ (g found).rest = found.rest) :
    Follows text tokens caller w ts (x >>= fun found => .ok (g found)) := by
  have hm := h.map (f := id) hg
  rwa [id_map] at hm

theorem cells_length : tokens.cells.length = tokens.list.length + 1 := by
  simp [Tokens.cells]

theorem cells_of_suffix (h : ts <:+ tokens.list) :
    tokens.cells[tokens.list.length - ts.length]? = some (cellOf tokens ts) := by
  obtain ⟨us, hus⟩ := h
  have hindex : tokens.list.length - ts.length = us.length := by simp [← hus]
  rw [hindex, Tokens.cells, ← hus]
  cases ts <;> simp [cellOf]

theorem outcome_current {ground : Ground} {s : State} {cell : Cell}
    (h : ground.cells[s.index]? = some cell) :
    current.outcome ground s = some (.ok cell, s) := by
  unfold current
  simp only [outcome_bind, outcome_read, outcome_get, Option.bind_some, h]
  rfl

theorem outcome_take {accepts : Option Token.Kind → Bool} {ground : Ground} {s : State}
    {cell : Cell}
    (h : ground.cells[s.index]? = some cell) :
    (take accepts).outcome ground s =
      if accepts cell.kind? then
        some (.ok true, ⟨s.index + 1, s.record ++ [.stands (s.index + 1)]⟩)
      else some (.ok false, s) := by
  rw [take, outcome_bind, outcome_current h]
  dsimp only [Option.bind_some]
  split <;> rfl

theorem outcome_ahead {ground : Ground} {s : State} {distance : Nat} {cell : Cell}
    (h : ground.cells[min (s.index + distance) (ground.cells.length - 1)]? = some cell) :
    (ahead distance).outcome ground s = some (.ok cell, s) := by
  have hne : ground.cells.length ≠ 0 := by
    intro h0
    rw [List.length_eq_zero_iff.1 h0] at h
    cases h
  unfold ahead
  rw [outcome_bind, outcome_read]
  simp only [Option.bind_some, if_neg hne, outcome_bind, outcome_get, h]
  rfl

theorem follows_current :
    Follows text tokens caller current ts (.ok (.before (cellOf tokens ts) ts)) := by
  refine follows_of_outcome [] List.suffix_rfl (fun hts record => ?_) (by simp)
  rw [List.append_nil]
  exact outcome_current (cells_of_suffix hts)

/-- One cell further on, which is the end if no token is there. -/
theorem follows_ahead (t : Token) (ts : List Token) :
    Follows text tokens caller (ahead 1) (t :: ts)
      (.ok (.before (cellOf tokens ts) (t :: ts))) := by
  refine follows_of_outcome [] List.suffix_rfl (fun hts record => ?_) (by simp)
  have hle := hts.length_le
  have hindex : min (tokens.list.length - (t :: ts).length + 1) (tokens.cells.length - 1) =
      tokens.list.length - ts.length := by
    rw [cells_length]
    simp only [List.length_cons] at hle ⊢
    omega
  rw [List.append_nil]
  refine outcome_ahead ?_
  simp only [hindex]
  exact cells_of_suffix ((List.suffix_cons t ts).trans hts)

theorem follows_advance (us ts : List Token) :
    Follows text tokens caller (advance us.length) (us ++ ts) (.ok (.before () ts)) := by
  have hindex (hts : us ++ ts <:+ tokens.list) :
      tokens.list.length - (us ++ ts).length + us.length = tokens.list.length - ts.length := by
    have hle := hts.length_le
    rw [List.length_append] at hle ⊢
    omega
  refine follows_of_outcome [.stands (tokens.list.length - ts.length)] (List.suffix_append us ts)
    (fun hts record => ?_) (fun _ e he => ?_)
  · rw [outcome_advance, hindex hts]
  · rw [List.mem_singleton.1 he, Event.Sound, cells_length]
    omega

theorem follows_fail (cause : SyntaxError.Cause) :
    Follows text tokens caller (fail cause : Walk α) ts
      (.error ⟨cause, ts⟩ : Except Fault (Found Token a α)) := by
  intro hts
  refine ⟨List.suffix_rfl, [], by simp, fun record => ?_⟩
  unfold fail
  rw [outcome_bind, outcome_current (cells_of_suffix hts), List.append_nil]
  cases ts <;> rfl

theorem isMark_cellOf_of_none {m : Mark} (h : mark? m ts = none) :
    isMark m (cellOf tokens ts).kind? = false := by
  cases ts with
  | nil => rfl
  | cons t ts => simpa [isMark, cellOf] using Grammar.mark?_cons_eq_none_iff.1 h

theorem follows_take_cons {accepts : Option Token.Kind → Bool} {t : Token}
    (h : accepts (some t.kind) = true) :
    Follows text tokens caller (take accepts) (t :: ts) (.ok (.before true ts)) := by
  refine follows_current.behind ?_
  change Follows _ _ _ (if accepts (some t.kind) = true then _ else _) _ _
  rw [if_pos h]
  exact (follows_advance [t] ts).behind .pure

theorem follows_take_of_not {accepts : Option Token.Kind → Bool}
    (h : accepts (cellOf tokens ts).kind? = false) :
    Follows text tokens caller (take accepts) ts (.ok (.before false ts)) := by
  refine follows_current.behind ?_
  rw [h]
  exact .pure

theorem follows_optionalMark (m : Mark) (ts : List Token) :
    Follows text tokens caller (take (isMark m)) ts (.ok (optionalMark m ts)) := by
  rcases Grammar.mark?_cases m ts with hm | ⟨t, us, rfl, ht⟩
  · rw [optionalMark, hm]
    exact follows_take_of_not (isMark_cellOf_of_none hm)
  · rw [optionalMark, Grammar.mark?_cons_of_eq ht]
    exact follows_take_cons (by simp [isMark, ht])

theorem follows_optionalWord (word : String) (ts : List Token) :
    Follows text tokens caller (take (isWord word)) ts (.ok (optionalWord word ts)) := by
  cases ts with
  | nil => exact follows_take_of_not rfl
  | cons t ts =>
    rw [optionalWord]
    split
    · next ht => exact follows_take_cons (by simp [isWord, ht])
    · next ht => exact follows_take_of_not (by simp [isWord, cellOf, ht])

/-- Where a mark decides how the walk goes on. -/
theorem Follows.ite_mark {m : Mark} {yes no : Walk α} {reading : Except Fault (Found Token a α)}
    (hyes : ∀ t us, ts = t :: us → t.kind = .mark m → Follows text tokens caller yes us reading)
    (hno : mark? m ts = none → Follows text tokens caller no ts reading) :
    Follows text tokens caller (take (isMark m) >>= fun given => if given then yes else no) ts
      reading := by
  rcases Grammar.mark?_cases m ts with hm | ⟨t, us, rfl, ht⟩
  · exact (follows_take_of_not (isMark_cellOf_of_none hm)).behind (hno hm)
  · exact (follows_take_cons (by simp [isMark, ht])).behind (hyes t us rfl ht)

theorem follows_expect (m : Mark) (what : Expectation) (ts : List Token) :
    Follows text tokens caller (expect m what) ts (Grammar.mark m what ts) := by
  refine .ite_mark (fun t us hts ht => ?_) (fun hm => ?_)
  · subst hts
    rw [Grammar.mark, Grammar.mark?_cons_of_eq ht]
    exact .pure
  · rw [Grammar.mark, hm]
    exact follows_fail _

theorem follows_name (what : Expectation) (ts : List Token) :
    Follows text tokens caller (name what) ts (Grammar.name what ts) := by
  refine follows_current.behind ?_
  cases ts with
  | nil => exact follows_fail _
  | cons t ts =>
    rw [Grammar.name, cellOf]
    cases t.kind with
    | name n => exact (follows_advance [t] ts).behind .pure
    | _ => exact follows_fail _

theorem follows_quoted (what : Expectation) (ts : List Token) :
    Follows text tokens caller (quoted what) ts (Grammar.quoted what ts) := by
  refine follows_current.behind ?_
  cases ts with
  | nil => exact follows_fail _
  | cons t ts =>
    rw [Grammar.quoted, cellOf]
    cases t.kind with
    | text s => exact (follows_advance [t] ts).behind .pure
    | _ => exact follows_fail _

theorem follows_key (what : Expectation) (ts : List Token) :
    Follows text tokens caller (key what) ts (Grammar.key what ts) := by
  refine follows_current.behind ?_
  cases ts with
  | nil => exact follows_fail _
  | cons t ts =>
    rw [Grammar.key, cellOf]
    cases t.kind with
    | name n => exact (follows_advance [t] ts).behind .pure
    | text s => exact (follows_advance [t] ts).behind .pure
    | _ => exact follows_fail _

theorem follows_separator (close : Mark) (what : Expectation) (ts : List Token) :
    Follows text tokens caller (separator close what) ts (Grammar.separator close what ts) := by
  cases ts with
  | nil =>
    refine (follows_take_of_not rfl).behind (follows_current.behind ?_)
    exact follows_fail _
  | cons t ts =>
    rw [Grammar.separator]
    split
    · next hs =>
      refine (follows_take_cons ?_).behind .pure
      simpa [isSeparator, isMark] using hs
    · next hs =>
      refine (follows_take_of_not (by simpa [isSeparator, isMark, cellOf] using hs)).behind
        (follows_current.behind ?_)
      by_cases hc : t.kind = .mark close
      · rw [if_pos (by simpa [isMark, cellOf] using hc), if_pos hc]
        exact .pure
      · rw [if_neg (by simpa [isMark, cellOf] using hc), if_neg hc]
        exact follows_fail _

/-- A rule may be entered from an entry at the first of the tokens. -/
def Entry.MayEnter (tokens : Tokens) (caller : Entry) (rule : Rule) (ts : List Token) : Prop :=
  caller.index + ts.length < tokens.list.length ∨
    caller.index + ts.length = tokens.list.length ∧ rule ∈ caller.rule.leads

/-- The entry of a rule where the tokens begin. -/
def Entry.At (tokens : Tokens) (rule : Rule) (ts : List Token) (here : Entry) : Prop :=
  here.rule = rule ∧ here.index + ts.length = tokens.list.length

section Entering

variable {rule callee : Rule} {here : Entry}

theorem Entry.At.mayEnter_same (h : here.At tokens rule ts) (hm : callee ∈ rule.leads) :
    here.MayEnter tokens callee ts :=
  .inr ⟨h.2, h.1 ▸ hm⟩

theorem Entry.At.mayEnter (h : here.At tokens rule ts) (hlt : us.length < ts.length) :
    here.MayEnter tokens callee us :=
  .inl (by have := h.2; omega)

theorem Entry.At.mayEnter_of_le (h : here.At tokens rule ts) (hle : us.length ≤ ts.length)
    (hm : callee ∈ rule.leads) : here.MayEnter tokens callee us := by
  rcases Nat.lt_or_eq_of_le hle with hlt | heq
  · exact h.mayEnter hlt
  · exact .inr ⟨heq ▸ h.2, h.1 ▸ hm⟩

theorem Entry.MayEnter.of_lt (h : caller.MayEnter tokens rule ts) (hlt : us.length < ts.length) :
    caller.MayEnter tokens callee us := by
  rcases h with h | h <;> exact .inl (by omega)

theorem Entry.MayEnter.precedes (h : caller.MayEnter tokens rule ts) (hts : ts <:+ tokens.list) :
    caller.Precedes ⟨rule, tokens.list.length - ts.length⟩ := by
  have hle := hts.length_le
  rcases h with hlt | ⟨heq, hlead⟩
  · exact .inl (by simp only; omega)
  · exact .inr ⟨by simp only; omega, hlead⟩

/-- Whoever enters the rule at the first of the tokens, its entry is put on record, and what comes
then is the same for all and follows the reading. -/
def Obeys (text : List Char) (tokens : Tokens) (rule : Rule) (w : Entry → Walk α)
    (ts : List Token) (reading : Except Fault (Found Token a α)) : Prop :=
  ∃ body : Entry → Walk α, (∀ caller, w caller = enter caller rule >>= body) ∧
    ∀ here : Entry, here.At tokens rule ts → Follows text tokens here (body here) ts reading

variable {w : Entry → Walk α} {reading : Except Fault (Found Token a α)}

theorem Obeys.exists_events (h : Obeys text tokens rule w ts reading) (hts : ts <:+ tokens.list) :
    left reading <:+ ts ∧
      ∃ events, (∀ e ∈ events, e.Sound tokens ⟨rule, tokens.list.length - ts.length⟩) ∧
        ∀ caller record,
          (w caller).outcome ⟨text, tokens.cells⟩ ⟨tokens.list.length - ts.length, record⟩ =
            some (ending text tokens reading, ⟨tokens.list.length - (left reading).length,
              record ++ .enters caller ⟨rule, tokens.list.length - ts.length⟩ :: events⟩) := by
  obtain ⟨body, hw, hbody⟩ := h
  obtain ⟨hleft, events, hsound, hrun⟩ :=
    hbody ⟨rule, _⟩ ⟨rfl, Nat.sub_add_cancel hts.length_le⟩ hts
  refine ⟨hleft, events, hsound, fun caller record => ?_⟩
  have hrun := hrun (record ++ [.enters caller ⟨rule, tokens.list.length - ts.length⟩])
  rw [List.append_assoc] at hrun
  rw [hw, outcome_bind, outcome_enter]
  exact hrun

/-- An entry is a part of the one that enters it, and so are those within it. -/
theorem Obeys.follows (h : Obeys text tokens rule w ts reading)
    (hc : caller.MayEnter tokens rule ts) : Follows text tokens caller (w caller) ts reading := by
  intro hts
  obtain ⟨hleft, events, hsound, hw⟩ := h.exists_events hts
  have hhere := hc.precedes hts
  refine ⟨hleft, _, ?_, hw caller⟩
  intro e he
  rcases List.mem_cons.1 he with rfl | he
  · exact ⟨hhere, .single hhere⟩
  · have hinner := hsound e he
    cases e with
    | stands index => exact hinner
    | enters caller callee => exact ⟨hinner.1, .head hhere hinner.2⟩

theorem Obeys.bind {f : α → Walk β} {g : Found Token a α → Except Fault (Found Token b β)}
    (h : Obeys text tokens rule w ts reading) (hc : caller.MayEnter tokens rule ts)
    (hf : ∀ v rest h, reading = .ok ⟨v, rest, h⟩ →
      Follows text tokens caller (f v) rest (g ⟨v, rest, h⟩)) :
    Follows text tokens caller (w caller >>= f) ts (reading >>= g) :=
  (h.follows hc).bind hf

end Entering

end Walk
end SchemaContract
