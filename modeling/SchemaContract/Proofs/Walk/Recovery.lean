import Mathlib
import SchemaContract.Proofs.Grammar.Following
import SchemaContract.Proofs.Walk.Statements

/-!
Where skipping ends. A statement that begins with no keyword is skipped up to the first token that
can end it: a semicolon is skipped too, a closing brace only where the statement begins with it, and
an opening one with the block that it opens. Such a block is the shortest part from its brace on in
which the braces are paired; where there is none, everything is skipped.
-/
namespace SchemaContract

namespace Grammar

variable {ts us rest : List Token}

/-- The tokens from `k` on begin with a block of `n` tokens. -/
def BlockAt (ts : List Token) (k n : Nat) : Prop :=
  IsLeast {n | 0 < n ∧ Paired ((ts.drop k).take n)} n

def IsStop (t : Token) : Prop :=
  t.kind ∈ [.mark .semicolon, .mark .leftBrace, .mark .rightBrace]

def StopsAt (ts : List Token) (i k : Nat) : Prop :=
  IsLeast {k | i ≤ k ∧ ∃ t ∈ ts[k]?, IsStop t} k

/-- A statement that is skipped from `i` on is skipped up to `j`. -/
inductive Skips (ts : List Token) (i : Nat) : Nat → Prop where
  | all : (∀ k, ¬ StopsAt ts i k) → Skips ts i ts.length
  | semicolon {k : Nat} {t : Token} :
      StopsAt ts i k → ts[k]? = some t → t.kind = .mark .semicolon → Skips ts i (k + 1)
  | brace {t : Token} : ts[i]? = some t → t.kind = .mark .rightBrace → Skips ts i (i + 1)
  | before {k : Nat} {t : Token} :
      StopsAt ts i k → ts[k]? = some t → t.kind = .mark .rightBrace → i < k → Skips ts i k
  | block {k n : Nat} {t : Token} :
      StopsAt ts i k → ts[k]? = some t → t.kind = .mark .leftBrace → BlockAt ts k n →
      Skips ts i (k + n)
  | unclosed {k : Nat} {t : Token} :
      StopsAt ts i k → ts[k]? = some t → t.kind = .mark .leftBrace → (∀ n, ¬ BlockAt ts k n) →
      Skips ts i ts.length

theorem paired_block {t u : Token} {inside : List Token} (ht : t.kind = .mark .leftBrace)
    (hin : Balanced inside) (hu : u.kind = .mark .rightBrace) : Paired (t :: (inside ++ [u])) :=
  (Balanced.block ht hin hu .nil).paired

/-- As long as a block is open, no part of it is paired. -/
theorem not_paired_of_led {t : Token} (ht : t.kind = .mark .leftBrace)
    (hled : ∀ us, us <+: ts → closes us ≤ opens us) {n : Nat} (hn : 0 < n) :
    ¬ Paired ((t :: ts).take n) := by
  intro hp
  obtain ⟨m, rfl⟩ := Nat.exists_eq_add_of_lt hn
  have hcounts := counts_cons_open ht (ts.take m)
  have := hled _ (List.take_prefix m ts)
  have := hp.equal
  rw [Nat.zero_add, List.take_succ_cons] at this
  omega

/-- A block that is closed is the shortest part that is paired. -/
theorem isLeast_block {t : Token} (ht : t.kind = .mark .leftBrace)
    (h : behindBlock 0 ts = some rest) :
    ∃ n, IsLeast {n | 0 < n ∧ Paired ((t :: ts).take n)} n ∧ rest = (t :: ts).drop n := by
  obtain ⟨inside, u, rfl, hin, hu⟩ := before_behindBlock h
  have hts : t :: (inside ++ u :: rest) = t :: (inside ++ [u]) ++ rest := by simp
  refine ⟨(t :: (inside ++ [u])).length, ⟨⟨Nat.succ_pos _, ?_⟩, ?_⟩, ?_⟩
  · rw [hts, List.take_left]
    exact paired_block ht hin hu
  · rintro n ⟨hn, hp⟩
    by_contra hlt
    have hle : n ≤ (t :: inside).length := by
      simp only [List.length_cons, List.length_append, List.length_nil] at hlt ⊢
      omega
    rw [← List.cons_append, List.take_append_of_le_length hle] at hp
    exact not_paired_of_led ht (fun _ => hin.led) hn hp
  · rw [hts, List.drop_left]

theorem behindBlock_eq_some_iff {t : Token} (ht : t.kind = .mark .leftBrace) :
    behindBlock 0 ts = some rest ↔
      ∃ n, IsLeast {n | 0 < n ∧ Paired ((t :: ts).take n)} n ∧ rest = (t :: ts).drop n := by
  refine ⟨isLeast_block ht, ?_⟩
  rintro ⟨n, hn, rfl⟩
  cases hb : behindBlock 0 ts with
  | none => exact absurd hn.1.2 (not_paired_of_led ht (fun _ => closes_le_of_behindBlock hb) hn.1.1)
  | some rest =>
    obtain ⟨m, hm, rfl⟩ := isLeast_block ht hb
    rw [hn.unique hm]

variable {i j k n : Nat} {t : Token}

theorem drop_eq_cons (ht : ts[k]? = some t) : ts.drop k = t :: ts.drop (k + 1) := by
  obtain ⟨hk, rfl⟩ := List.getElem?_eq_some_iff.1 ht
  exact List.drop_eq_getElem_cons hk

theorem behindBlock_of_blockAt (ht : ts[k]? = some t) (hk : t.kind = .mark .leftBrace)
    (h : BlockAt ts k n) : behindBlock 0 (ts.drop (k + 1)) = some (ts.drop (k + n)) := by
  unfold BlockAt at h
  rw [drop_eq_cons ht] at h
  refine (behindBlock_eq_some_iff hk).2 ⟨n, h, ?_⟩
  rw [← drop_eq_cons ht, List.drop_drop]

theorem behindBlock_of_not_blockAt (ht : ts[k]? = some t) (hk : t.kind = .mark .leftBrace)
    (h : ∀ n, ¬ BlockAt ts k n) : behindBlock 0 (ts.drop (k + 1)) = none := by
  cases hb : behindBlock 0 (ts.drop (k + 1)) with
  | none => rfl
  | some rest =>
    obtain ⟨n, hn, -⟩ := isLeast_block hk hb
    rw [← drop_eq_cons ht] at hn
    exact absurd hn (h n)

theorem BlockAt.le_length (ht : ts[k]? = some t) (h : BlockAt ts k n) : k + n ≤ ts.length := by
  have hk := (List.getElem?_eq_some_iff.1 ht).1
  have hall : n ≤ (ts.drop k).length := by
    by_contra hlt
    refine hlt (h.2 ⟨by rw [List.length_drop]; omega, ?_⟩)
    have hp := h.1.2
    rwa [List.take_of_length_le (by omega)] at hp ⊢
  rw [List.length_drop] at hall
  omega

theorem recovered_append_of_forall (h : ∀ t ∈ us, ¬ IsStop t) :
    recovered (us ++ ts) = recovered ts := by
  induction us with
  | nil => rfl
  | cons t us ih =>
    have ht := h t List.mem_cons_self
    simp only [IsStop, List.mem_cons, List.not_mem_nil, or_false, not_or] at ht
    rw [List.cons_append, recovered, if_neg ht.1, if_neg ht.2.1, if_neg ht.2.2]
    exact ih fun u hu => h u (List.mem_cons_of_mem t hu)

theorem exists_index_of_mem_drop {t : Token} (h : t ∈ ts.drop i) :
    ∃ k, i ≤ k ∧ ts[k]? = some t := by
  obtain ⟨m, hm⟩ := List.mem_iff_getElem?.1 h
  exact ⟨i + m, Nat.le_add_right i m, by rwa [List.getElem?_drop] at hm⟩

/-- Nothing in front of the first token that can end the statement is looked at. -/
theorem StopsAt.recovered_eq (h : StopsAt ts i k) :
    recovered (ts.drop i) = recovered (ts.drop k) := by
  have hsplit : ts.drop i = (ts.drop i).take (k - i) ++ ts.drop k := by
    conv_lhs => rw [← List.take_append_drop (k - i) (ts.drop i), List.drop_drop,
      Nat.add_sub_cancel' h.1.1]
  rw [hsplit]
  refine recovered_append_of_forall fun t ht hstop => ?_
  obtain ⟨m, hm⟩ := List.mem_iff_getElem?.1 ht
  rw [List.getElem?_take, Option.ite_none_right_eq_some, List.getElem?_drop] at hm
  have hle : k ≤ i + m := h.2 ⟨Nat.le_add_right i m, t, hm.2, hstop⟩
  omega

theorem recovered_of_not_stopsAt (h : ∀ k, ¬ StopsAt ts i k) : recovered (ts.drop i) = [] := by
  have hnone : ∀ t ∈ ts.drop i, ¬ IsStop t := by
    intro t ht hstop
    obtain ⟨k, hk, hget⟩ := exists_index_of_mem_drop ht
    have hs : {k | i ≤ k ∧ ∃ t ∈ ts[k]?, IsStop t}.Nonempty := ⟨k, hk, t, hget, hstop⟩
    exact h _ ⟨Nat.sInf_mem hs, fun _ => Nat.sInf_le⟩
  rw [← List.append_nil (ts.drop i)]
  exact recovered_append_of_forall hnone

theorem recovered_semicolon (ht : ts[k]? = some t) (hk : t.kind = .mark .semicolon) :
    recovered (ts.drop k) = ts.drop (k + 1) := by
  rw [drop_eq_cons ht, recovered, if_pos hk]

theorem recovered_open (ht : ts[k]? = some t) (hk : t.kind = .mark .leftBrace) :
    recovered (ts.drop k) = (behindBlock 0 (ts.drop (k + 1))).getD [] := by
  rw [drop_eq_cons ht, recovered, if_neg (by simp [hk]), if_pos hk]

theorem recovered_close (ht : ts[k]? = some t) (hk : t.kind = .mark .rightBrace) :
    recovered (ts.drop k) = ts.drop k := by
  rw [drop_eq_cons ht, recovered, if_neg (by simp [hk]), if_neg (by simp [hk]), if_pos hk]

theorem stopsAt_self (ht : ts[i]? = some t) (hs : IsStop t) : StopsAt ts i i :=
  ⟨⟨le_rfl, t, ht, hs⟩, fun _ h => h.1⟩

theorem StopsAt.skipStatement_eq {t u : Token} (h : StopsAt ts i k) (ht : ts[i]? = some t)
    (hu : ts[k]? = some u) (hk : i < k ∨ u.kind ≠ .mark .rightBrace) :
    skipStatement t (ts.drop (i + 1)) = recovered (ts.drop k) := by
  have hne : t.kind ≠ .mark .rightBrace := by
    intro hclose
    obtain rfl : k = i := h.unique (stopsAt_self ht (by simp [IsStop, hclose]))
    cases ht.symm.trans hu
    exact hk.elim (Nat.lt_irrefl _) fun h => h hclose
  rw [skipStatement, if_neg hne, ← drop_eq_cons ht, h.recovered_eq]

theorem Skips.skipStatement_eq (h : Skips ts i j) (ht : ts[i]? = some t) :
    j ≤ ts.length ∧ skipStatement t (ts.drop (i + 1)) = ts.drop j := by
  have hlt {k : Nat} {u : Token} (hu : ts[k]? = some u) : k < ts.length :=
    (List.getElem?_eq_some_iff.1 hu).1
  cases h with
  | all hnone =>
    have hne : t.kind ≠ .mark .rightBrace := fun hclose =>
      hnone i (stopsAt_self ht (by simp [IsStop, hclose]))
    refine ⟨le_rfl, ?_⟩
    rw [skipStatement, if_neg hne, ← drop_eq_cons ht, recovered_of_not_stopsAt hnone,
      List.drop_length]
  | semicolon hk hu hkind =>
    refine ⟨hlt hu, ?_⟩
    rw [hk.skipStatement_eq ht hu (.inr (by simp [hkind])), recovered_semicolon hu hkind]
  | brace hu hkind =>
    cases ht.symm.trans hu
    exact ⟨hlt ht, by rw [skipStatement, if_pos hkind]⟩
  | before hk hu hkind hik =>
    refine ⟨(hlt hu).le, ?_⟩
    rw [hk.skipStatement_eq ht hu (.inl hik), recovered_close hu hkind]
  | block hk hu hkind hb =>
    refine ⟨hb.le_length hu, ?_⟩
    rw [hk.skipStatement_eq ht hu (.inr (by simp [hkind])), recovered_open hu hkind,
      behindBlock_of_blockAt hu hkind hb, Option.getD_some]
  | unclosed hk hu hkind hb =>
    refine ⟨le_rfl, ?_⟩
    rw [hk.skipStatement_eq ht hu (.inr (by simp [hkind])), recovered_open hu hkind,
      behindBlock_of_not_blockAt hu hkind hb, Option.getD_none, List.drop_length]

theorem exists_skips (ts : List Token) (i : Nat) : ∃ j, Skips ts i j := by
  by_cases hstops : ∃ k, StopsAt ts i k
  · obtain ⟨k, hk⟩ := hstops
    obtain ⟨hik, t, ht, hstop⟩ := hk.1
    simp only [IsStop, List.mem_cons, List.not_mem_nil, or_false] at hstop
    rcases hstop with hkind | hkind | hkind
    · exact ⟨_, .semicolon hk ht hkind⟩
    · by_cases hb : ∃ n, BlockAt ts k n
      · obtain ⟨n, hn⟩ := hb
        exact ⟨_, .block hk ht hkind hn⟩
      · exact ⟨_, .unclosed hk ht hkind (not_exists.1 hb)⟩
    · rcases Nat.eq_or_lt_of_le hik with rfl | hlt
      · exact ⟨_, .brace ht hkind⟩
      · exact ⟨_, .before hk ht hkind hlt⟩
  · exact ⟨_, .all (not_exists.1 hstops)⟩

theorem skips_iff (ht : ts[i]? = some t) :
    ∃ j, i < j ∧ j ≤ ts.length ∧ skipStatement t (ts.drop (i + 1)) = ts.drop j ∧
      ∀ j', Skips ts i j' ↔ j' = j := by
  obtain ⟨j, hj⟩ := exists_skips ts i
  obtain ⟨hle, heq⟩ := hj.skipStatement_eq ht
  have hi := (List.getElem?_eq_some_iff.1 ht).1
  refine ⟨j, ?_, hle, heq, fun j' => ⟨fun hj' => ?_, fun h => h ▸ hj⟩⟩
  · have hlt := skipStatement_length_lt t (ts.drop (i + 1))
    rw [heq, ← drop_eq_cons ht, List.length_drop, List.length_drop] at hlt
    omega
  · obtain ⟨hle', heq'⟩ := hj'.skipStatement_eq ht
    have hlength := congrArg List.length (heq'.symm.trans heq)
    rw [List.length_drop, List.length_drop] at hlength
    omega

end Grammar

namespace Walk

open Grammar

/-- Wherever the record stands, a walk from an index ends so and at another index. -/
def Reaches {α : Type} (w : Walk α) (ground : Ground) (i : Nat) (ending : Except Halt α)
    (j : Nat) : Prop :=
  ∀ record, ∃ events, w.outcome ground ⟨i, record⟩ = some (ending, ⟨j, record ++ events⟩)

variable {text : List Char} {tokens : Tokens} {α : Type} {a : Nat}

theorem Follows.reaches {caller : Entry} {w : Walk α} {i : Nat}
    {reading : Except Fault (Found Token a α)}
    (h : Follows text tokens caller w (tokens.list.drop i) reading) (hi : i ≤ tokens.list.length) :
    Reaches w ⟨text, tokens.cells⟩ i (ending text tokens reading)
      (tokens.list.length - (left reading).length) := by
  obtain ⟨-, events, -, hw⟩ := h (List.drop_suffix i _)
  rw [List.length_drop, Nat.sub_sub_self hi] at hw
  exact fun record => ⟨events, hw record⟩

theorem Entry.Precedes.mayEnter {caller : Entry} {rule : Rule} {i : Nat}
    (h : caller.Precedes ⟨rule, i⟩) (hi : i ≤ tokens.list.length) :
    caller.MayEnter tokens rule (tokens.list.drop i) := by
  unfold MayEnter
  rw [List.length_drop]
  rcases h with hlt | ⟨heq, hlead⟩
  · exact .inl (by simp only at hlt; omega)
  · exact .inr ⟨by simp only at heq; omega, hlead⟩

theorem reaches_recover {i j : Nat} {t : Token} {caller : Entry}
    (ht : tokens.list[i]? = some t) (hj : j ≤ tokens.list.length)
    (hrest : skipStatement t (tokens.list.drop (i + 1)) = tokens.list.drop j)
    (hc : caller.Precedes ⟨.recover, i⟩) :
    Reaches (Entry.recover caller i) ⟨text, tokens.cells⟩ i (.ok ()) j := by
  have hi := (List.getElem?_eq_some_iff.1 ht).1.le
  have hts := drop_eq_cons ht
  have hlt : (skipStatement t (tokens.list.drop (i + 1))).length < tokens.list.length + 1 := by
    rw [hrest, List.length_drop]
    omega
  have hobeys : Obeys text tokens .recover _ _ _ :=
    obeys_recover_start t _ (hts ▸ List.drop_suffix i tokens.list) hlt
  have hfollows := hobeys.follows (hts ▸ hc.mayEnter hi)
  rw [← hts, List.length_drop, Nat.sub_sub_self hi] at hfollows
  have hend : tokens.list.length - (skipStatement t (tokens.list.drop (i + 1))).length = j := by
    rw [hrest, List.length_drop, Nat.sub_sub_self hj]
  rw [← hend]
  exact hfollows.reaches hi

theorem reaches_braces {i : Nat} {t : Token} {caller : Entry} {rest? : Option (List Token)}
    (ht : tokens.list[i]? = some t) (hk : t.kind = .mark .leftBrace)
    (hrest : behindBlock 0 (tokens.list.drop (i + 1)) = rest?)
    (hc : caller.Precedes ⟨.braces, i⟩) :
    Reaches (Entry.braces caller 0) ⟨text, tokens.cells⟩ i
      (if rest?.isSome then .ok ()
        else .error (.fault ⟨.ofOffset text tokens.stop, .openBrace⟩))
      (tokens.list.length - (rest?.getD []).length) := by
  have hi := (List.getElem?_eq_some_iff.1 ht).1.le
  have hts := drop_eq_cons ht
  have hlt : ∀ rest ∈ rest?, rest.length < (tokens.list.drop (i + 1)).length :=
    fun rest h => behindBlock_length_lt (hrest.trans h)
  have hobeys : Obeys text tokens .braces _ _ _ := obeys_braces_open hk hrest hlt
  have hfollows := hobeys.follows (hts ▸ hc.mayEnter hi)
  rw [← hts] at hfollows
  have hreaches := hfollows.reaches hi
  cases rest? <;> exact hreaches

end Walk

/-- Skipping from a token on ends at one index, further on, which the tokens alone decide; and where
a brace opens there, the block that it opens ends behind the brace that matches it, if there is one.
Walks over the tokens come to the same indices, and fail only in a block that is not closed. -/
theorem Tokens.recovery (text : List Char) (tokens : Tokens) {i : Nat} {t : Token}
    (ht : tokens.list[i]? = some t) :
    (∃ j, i < j ∧ j ≤ tokens.list.length ∧ (∀ j', Grammar.Skips tokens.list i j' ↔ j' = j) ∧
      Grammar.skipStatement t (tokens.list.drop (i + 1)) = tokens.list.drop j ∧
      ∀ caller : Walk.Entry, caller.Precedes ⟨.recover, i⟩ →
        Walk.Reaches (Walk.Entry.recover caller i) ⟨text, tokens.cells⟩ i (.ok ()) j) ∧
    (t.kind = .mark .leftBrace →
      (∀ n, Grammar.BlockAt tokens.list i n →
        Grammar.behindBlock 0 (tokens.list.drop (i + 1)) = some (tokens.list.drop (i + n)) ∧
        ∀ caller : Walk.Entry, caller.Precedes ⟨.braces, i⟩ →
          Walk.Reaches (Walk.Entry.braces caller 0) ⟨text, tokens.cells⟩ i (.ok ()) (i + n)) ∧
      ((∀ n, ¬ Grammar.BlockAt tokens.list i n) →
        Grammar.behindBlock 0 (tokens.list.drop (i + 1)) = none ∧
        ∀ caller : Walk.Entry, caller.Precedes ⟨.braces, i⟩ →
          Walk.Reaches (Walk.Entry.braces caller 0) ⟨text, tokens.cells⟩ i
            (.error (.fault ⟨.ofOffset text tokens.stop, .openBrace⟩)) tokens.list.length)) := by
  refine ⟨?_, fun hk => ⟨fun n hn => ?_, fun hnone => ?_⟩⟩
  · obtain ⟨j, hij, hj, hrest, hskips⟩ := Grammar.skips_iff ht
    exact ⟨j, hij, hj, hskips, hrest, fun caller hc => Walk.reaches_recover ht hj hrest hc⟩
  · have hb := Grammar.behindBlock_of_blockAt ht hk hn
    refine ⟨hb, fun caller hc => ?_⟩
    have hreaches : Walk.Reaches _ ⟨text, tokens.cells⟩ _ _ _ := Walk.reaches_braces ht hk hb hc
    rwa [Option.getD_some, List.length_drop, Nat.sub_sub_self (hn.le_length ht)] at hreaches
  · have hb := Grammar.behindBlock_of_not_blockAt ht hk hnone
    exact ⟨hb, fun caller hc => Walk.reaches_braces ht hk hb hc⟩

/-- From the first token of `x { { } } }` on: up to the last brace, which is not skipped. -/
theorem Tokens.recovery_nested :
    let text := "x \x7b \x7b \x7d \x7d \x7d".toList
    let tokens : Tokens := ⟨[⟨.name "x", 0⟩, ⟨.mark .leftBrace, 2⟩, ⟨.mark .leftBrace, 4⟩,
      ⟨.mark .rightBrace, 6⟩, ⟨.mark .rightBrace, 8⟩, ⟨.mark .rightBrace, 10⟩], 11⟩
    tokens.list[0]? = some ⟨.name "x", 0⟩ ∧ Grammar.Skips tokens.list 0 5 ∧
      Walk.Reaches (Walk.Entry.recover ⟨.statement, 0⟩ 0) ⟨text, tokens.cells⟩ 0 (.ok ()) 5 := by
  intro text tokens
  obtain ⟨⟨j, -, hj, hskips, hrest, hwalk⟩, -⟩ :=
    Tokens.recovery text tokens (i := 0) (t := ⟨.name "x", 0⟩) rfl
  have hleft : (Grammar.skipStatement ⟨.name "x", 0⟩ (tokens.list.drop 1)).length = 1 := by decide
  have hlength : tokens.list.length = 6 := rfl
  rw [hrest, List.length_drop] at hleft
  obtain rfl : j = 5 := by omega
  exact ⟨rfl, (hskips 5).2 rfl, hwalk _ (.inr ⟨rfl, by decide⟩)⟩

end SchemaContract
