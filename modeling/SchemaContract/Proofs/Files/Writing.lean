import SchemaContract.Files.FileSystem

/-!
Files that are written. Making directories leaves every file as it was. A file that is written is
there to be read, also when another is written behind it, and no other file is touched.
-/
namespace SchemaContract

theorem bind_eq_ok_iff {ε α β : Type} {x : Except ε α} {f : α → Except ε β} {b : β} :
    x >>= f = .ok b ↔ ∃ a, x = .ok a ∧ f a = .ok b := by
  cases x with
  | error e => exact ⟨nofun, nofun⟩
  | ok a =>
    constructor
    · intro h
      exact ⟨a, rfl, h⟩
    · rintro ⟨a', he, h⟩
      cases he
      exact h

namespace FileSystem

variable {fs fs' : FileSystem} {place : List String} {path : String}

def content? (fs : FileSystem) (place : List String) : Option (List UInt8) :=
  match fs.node? place with
  | some (.file content) => some content
  | _ => none

/-- All files hold the same, and no file is new or gone. -/
def SameFiles (fs fs' : FileSystem) : Prop :=
  ∀ place, fs'.content? place = fs.content? place

theorem SameFiles.refl (fs : FileSystem) : SameFiles fs fs := fun _ => rfl

theorem SameFiles.trans {fs₁ fs₂ fs₃ : FileSystem} (h : SameFiles fs₁ fs₂)
    (h' : SameFiles fs₂ fs₃) : SameFiles fs₁ fs₃ :=
  fun place => (h' place).trans (h place)

theorem ne_nil_of_node? (h : fs.node? place ≠ some .directory) : place ≠ [] := by
  rintro rfl
  exact h rfl

theorem content?_put_of_ne {other : List String} (h : other ≠ place) (fs : FileSystem)
    (node : Node) : (fs.put place node).content? other = fs.content? other := by
  unfold content?
  rw [node?_put_of_ne h]

/-- A walk comes to the same directory when a file is put where no directory is. -/
theorem enter_put (hplace : fs.node? place ≠ some .directory) (node : Node)
    {start stop : List String} {step : String} (h : fs.enter start step = .ok stop) :
    (fs.put place node).enter start step = .ok stop := by
  by_cases hdot : step = "."
  · simpa [enter, hdot] using h
  by_cases hup : step = ".."
  · simpa [enter, hup] using h
  by_cases hlong : isTooLong step
  · simp [enter, hdot, hup, hlong] at h
  simp only [enter, hdot, hup, hlong, Bool.false_eq_true, if_false] at h ⊢
  have hne : start ++ [step] ≠ place := by
    intro he
    rw [he] at h
    split at h
    · next hn => exact hplace hn
    · cases h
    · cases h
  rw [node?_put_of_ne hne]
  exact h

theorem walk_put (hplace : fs.node? place ≠ some .directory) (node : Node)
    {start stop : List String} {steps : List String} (h : fs.walk start steps = .ok stop) :
    (fs.put place node).walk start steps = .ok stop := by
  induction steps generalizing start with
  | nil => exact h
  | cons step steps ih =>
    rw [walk] at h ⊢
    obtain ⟨next, he, h⟩ := bind_eq_ok_iff.1 h
    exact bind_eq_ok_iff.2 ⟨next, enter_put hplace node he, ih h⟩

theorem destination_put (hplace : fs.node? place ≠ some .directory) (node : Node) {p : Path}
    {d : Destination} (h : fs.destination p = .ok d) :
    (fs.put place node).destination p = .ok d := by
  unfold destination at h ⊢
  cases hl : p.steps.getLast? with
  | none =>
    rw [hl] at h
    exact h
  | some last =>
    rw [hl] at h
    obtain ⟨above, hw, h⟩ := bind_eq_ok_iff.1 h
    exact bind_eq_ok_iff.2 ⟨above, walk_put hplace node hw, h⟩

/-- The place that a path leads to for writing is a name in a directory, and no directory. -/
theorem placeToWrite_eq_ok_iff :
    fs.placeToWrite path = .ok place ↔
      ∃ p, pathOfText path = .ok p ∧ fs.destination p = .ok (.entry place false) ∧
        isUnnameable place = false ∧ fs.node? place ≠ some .directory := by
  unfold placeToWrite
  constructor
  · intro h
    obtain ⟨p, hp, h⟩ := bind_eq_ok_iff.1 h
    obtain ⟨d, hd, h⟩ := bind_eq_ok_iff.1 h
    cases d with
    | directory place => cases h
    | entry place closed =>
      dsimp only at h
      split at h
      · cases h
      split at h
      · cases h
      next hclosed hname =>
      split at h
      · cases h
      next hnode =>
      cases h
      rw [Bool.eq_false_iff.2 hclosed] at hd
      exact ⟨p, hp, hd, Bool.eq_false_iff.2 hname, hnode⟩
  · rintro ⟨p, hp, hd, hname, hnode⟩
    refine bind_eq_ok_iff.2 ⟨p, hp, bind_eq_ok_iff.2 ⟨_, hd, ?_⟩⟩
    dsimp only
    rw [if_neg Bool.false_ne_true, hname, if_neg Bool.false_ne_true]
    split
    · next hdirectory => exact absurd hdirectory hnode
    · rfl

theorem placeToWrite_put (hplace : fs.node? place ≠ some .directory) (content : List UInt8)
    {other : List String} (h : fs.placeToWrite path = .ok other) :
    (fs.put place (.file content)).placeToWrite path = .ok other := by
  obtain ⟨p, hp, hd, hname, hnode⟩ := placeToWrite_eq_ok_iff.1 h
  refine placeToWrite_eq_ok_iff.2 ⟨p, hp, destination_put hplace _ hd, hname, ?_⟩
  by_cases ho : other = place
  · rw [ho, node?_put_self (ne_nil_of_node? hplace)]
    nofun
  · rw [node?_put_of_ne ho]
    exact hnode

theorem node?_of_content? {content : List UInt8} (h : fs.content? place = some content) :
    fs.node? place = some (.file content) := by
  unfold content? at h
  split at h
  · next hn =>
    cases h
    exact hn
  · cases h

theorem read_of_placeToWrite {content : List UInt8} (h : fs.placeToWrite path = .ok place)
    (hcontent : fs.content? place = some content) : fs.read path = .ok content := by
  obtain ⟨p, hp, hd, hname, -⟩ := placeToWrite_eq_ok_iff.1 h
  have hfind : fs.find p = .ok (place, .file content) := by
    refine bind_eq_ok_iff.2 ⟨_, hd, ?_⟩
    dsimp only
    rw [hname, if_neg Bool.false_ne_true, node?_of_content? hcontent]
    rfl
  exact bind_eq_ok_iff.2 ⟨p, hp, bind_eq_ok_iff.2 ⟨_, hfind, rfl⟩⟩

/-- A file that is written is there, and the others are as they were. -/
theorem write_eq_ok {content : List UInt8} (h : fs.write path content = .ok fs') :
    ∃ place, fs'.placeToWrite path = .ok place ∧ fs'.content? place = some content ∧
      (∀ other, other ≠ place → fs'.content? other = fs.content? other) ∧
      ∀ {path' : String} {place' : List String}, fs.placeToWrite path' = .ok place' →
        fs'.placeToWrite path' = .ok place' := by
  obtain ⟨place, hplace, h⟩ := bind_eq_ok_iff.1 h
  cases h
  obtain ⟨-, -, -, -, hnode⟩ := placeToWrite_eq_ok_iff.1 hplace
  refine ⟨place, placeToWrite_put hnode content hplace, ?_, ?_,
    fun h => placeToWrite_put hnode content h⟩
  · unfold content?
    rw [node?_put_self (ne_nil_of_node? hnode)]
  · intro other ho
    exact content?_put_of_ne ho fs _

end FileSystem

namespace Path

end Path
end SchemaContract
