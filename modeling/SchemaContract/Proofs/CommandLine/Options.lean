import Mathlib
import SchemaContract.CommandLine

/-!
Words of the command line. Words that raise how much is logged say nothing else, wherever they
stand, even between an option and its value. Options say the same in every order, as long as no more
than one of them names an output.
-/
namespace SchemaContract.CommandLine

def verbosityFlags : List String := ["--verbose", "-v", "--debug"]

/-- Words, and the same with verbosity flags put among them. -/
inductive Raised : List String → List String → Prop where
  | nil : Raised [] []
  | word {words raised : List String} (word : String) :
      Raised words raised → Raised (word :: words) (word :: raised)
  | flag {flag : String} {words raised : List String} :
      flag ∈ verbosityFlags → Raised words raised → Raised words (flag :: raised)

theorem isVerbosity_iff (word : String) : isVerbosity word = true ↔ word ∈ verbosityFlags := by
  simp [isVerbosity, verbosityFlags, or_assoc]

theorem filter_eq_self {words : List String} (hwords : ∀ word ∈ words, word ∉ verbosityFlags) :
    words.filter (!isVerbosity ·) = words := by
  refine List.filter_eq_self.2 fun word hword => ?_
  have hverbosity : isVerbosity word = false :=
    Bool.eq_false_iff.2 (mt (isVerbosity_iff word).1 (hwords word hword))
  rw [hverbosity, Bool.not_false]

theorem Raised.filter_eq {words raised : List String} (h : Raised words raised)
    (hwords : ∀ word ∈ words, word ∉ verbosityFlags) :
    raised.filter (!isVerbosity ·) = words := by
  rw [← filter_eq_self hwords]
  clear hwords
  induction h with
  | nil => rfl
  | word word _ ih => simp only [List.filter_cons, ih]
  | flag hflag _ ih =>
    rw [List.filter_cons_of_neg (by simp [(isVerbosity_iff _).2 hflag]), ih]

/-- An option with its value, or a word that is no option. -/
inductive Given where
  | output (path : String)
  | tree
  | placeholder
  | unknown (word : String)
deriving DecidableEq

namespace Given

def words : Given → List String
  | output path => ["--output", path]
  | tree => ["--ast"]
  | placeholder => ["--placeholder-unsupported"]
  | unknown word => [word]

def path? : Given → Option String
  | output path => some path
  | _ => none

def isUnknown : Given → Bool
  | unknown _ => true
  | _ => false

/-- No word of it is taken for verbosity, and a word that is no option is not spelled like one. -/
def Fits : Given → Prop
  | output path => path ∉ verbosityFlags
  | unknown word =>
    word ∉ verbosityFlags ∧ word ∉ ["--output", "--ast", "--placeholder-unsupported"]
  | _ => True

def apply (options : Options) : Given → Options
  | output path => { options with output? := some path }
  | tree => { options with tree := true }
  | placeholder => { options with policy := .placeholder }
  | unknown _ => options

end Given

def Options.ofGiven (gs : List Given) : Options where
  output? := (gs.filterMap Given.path?).getLast?
  tree := decide (.tree ∈ gs)
  policy := if .placeholder ∈ gs then .placeholder else .abort

variable {gs gs' : List Given} {options options' : Options}

/-- Of several outputs the last counts, and of the others any. -/
theorem foldl_apply (options : Options) (gs : List Given) :
    gs.foldl Given.apply options =
      ⟨(gs.filterMap Given.path?).getLast?.or options.output?,
        options.tree || decide (.tree ∈ gs),
        if .placeholder ∈ gs then .placeholder else options.policy⟩ := by
  induction gs generalizing options with
  | nil => simp
  | cons g gs ih =>
    rw [List.foldl_cons, ih]
    cases g with
    | output path =>
      have hpaths : (Given.output path :: gs).filterMap Given.path? =
          path :: gs.filterMap Given.path? := rfl
      rw [hpaths, List.getLast?_cons]
      cases (gs.filterMap Given.path?).getLast? <;> simp [Given.apply]
    | tree | placeholder | unknown => simp [Given.apply, Given.path?]

theorem foldl_apply_initial (gs : List Given) :
    gs.foldl Given.apply Options.initial = .ofGiven gs := by
  simp [foldl_apply, Options.initial, Options.ofGiven]

theorem ofGiven_of_perm (h : gs.Perm gs') (hone : (gs.filterMap Given.path?).length ≤ 1) :
    Options.ofGiven gs = .ofGiven gs' := by
  have hpaths : gs.filterMap Given.path? = gs'.filterMap Given.path? := by
    have hperm := h.filterMap Given.path?
    revert hone hperm
    rcases gs.filterMap Given.path? with _ | ⟨path, _ | ⟨other, paths⟩⟩ <;> intro hone hperm
    · exact hperm.nil_eq
    · exact List.singleton_perm.1 hperm
    · exact absurd hone (by simp)
  simp [Options.ofGiven, hpaths, h.mem_iff]

theorem read_of_known (options : Options) (h : ∀ g ∈ gs, g.isUnknown = false) :
    options.read (gs.flatMap Given.words) = .ok (gs.foldl Given.apply options) := by
  induction gs generalizing options with
  | nil => rfl
  | cons g gs ih =>
    have hothers := ih (g.apply options) fun g' hg' => h g' (List.mem_cons_of_mem g hg')
    rw [List.flatMap_cons, List.foldl_cons, ← hothers]
    cases g with
    | output path => rfl
    | tree => rfl
    | placeholder => rfl
    | unknown word => cases h (.unknown word) List.mem_cons_self

theorem read_of_unknown (options : Options) (hfits : ∀ g ∈ gs, g.Fits)
    (h : ∃ g ∈ gs, g.isUnknown = true) :
    ∃ fault, options.read (gs.flatMap Given.words) = .error fault := by
  induction gs generalizing options with
  | nil => simp at h
  | cons g gs ih =>
    rw [List.flatMap_cons]
    cases g with
    | unknown word =>
      obtain ⟨-, hword⟩ := hfits (.unknown word) List.mem_cons_self
      simp only [List.mem_cons, List.not_mem_nil, or_false, not_or] at hword
      refine ⟨.unknownOption word, ?_⟩
      rw [Given.words, List.singleton_append, Options.read]
      all_goals simp [hword]
    | output path | tree | placeholder =>
      have hothers : ∃ g ∈ gs, g.isUnknown = true := by simpa [Given.isUnknown] using h
      exact ih _ (fun g' hg' => hfits g' (List.mem_cons_of_mem _ hg')) hothers

theorem given_of_read {words : List String} (h : options.read words = .ok options') :
    ∃ gs : List Given, (∀ g ∈ gs, g.isUnknown = false) ∧ words = gs.flatMap Given.words ∧
      options' = gs.foldl Given.apply options := by
  fun_induction Options.read options words with
  | case1 options =>
    cases h
    exact ⟨[], by simp, rfl, rfl⟩
  | case2 => cases h
  | case3 options path words ih =>
    obtain ⟨gs, hgs, rfl, rfl⟩ := ih h
    exact ⟨.output path :: gs, by simpa [Given.isUnknown] using hgs, rfl, rfl⟩
  | case4 options words ih =>
    obtain ⟨gs, hgs, rfl, rfl⟩ := ih h
    exact ⟨.tree :: gs, by simpa [Given.isUnknown] using hgs, rfl, rfl⟩
  | case5 options words ih =>
    obtain ⟨gs, hgs, rfl, rfl⟩ := ih h
    exact ⟨.placeholder :: gs, by simpa [Given.isUnknown] using hgs, rfl, rfl⟩
  | case6 options word words _ _ _ _ => cases h

end SchemaContract.CommandLine
