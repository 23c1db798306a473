import Mathlib.Tactic.SplitIfs
import Typography.Host

/-!
# Reading back what was written

A write that is done puts one file in its place: the same path reads the written bytes, and
every other place holds what it held, `Files.wrote_of_write`. Paths are different names for
places, so this says which paths of another file are meant: those that lead to another place.
-/

namespace Typography

/-- Bytes are read as the text that they encode, and as no other. -/
theorem decodeText_eq_ok_iff {bytes : ByteArray} {text : String} :
    decodeText bytes = .ok text ↔ bytes = text.toUTF8 := by
  unfold decodeText String.fromUTF8?
  constructor
  · intro h
    split at h
    · rename_i decoded hdecoded
      obtain rfl := Except.ok.inj h
      split at hdecoded
      · obtain rfl := Option.some.inj hdecoded
        rfl
      · cases hdecoded
    · cases h
  · rintro rfl
    rw [String.toUTF8_eq_toByteArray, dif_pos text.isValidUTF8]
    rfl

namespace Files

/-- The file at `path` is the one that is different in `files'`, and it holds these bytes. -/
structure Wrote (files files' : Files) (path : String) (bytes : ByteArray) : Prop where
  read_eq : files'.read path = .ok bytes
  exists_place : ∃ place, files.locate path = .ok place ∧
    files'.get? place = some (.file bytes) ∧
    ∀ other, other ≠ place → files'.get? other = files.get? other

variable {files files' : Files} {place : List String} {path : String} {bytes : ByteArray}

/-- An entry is found at its place, and every other place holds what it held. -/
theorem get?_put (hplace : place.all (· == parentName) = false) (entry : Entry)
    (other : List String) :
    (files.put place entry).get? other = if other = place then some entry else files.get? other := by
  by_cases h : other = place
  · subst h
    simp [get?, put, hplace]
  · have hne : (place == other) = false := by simpa using fun heq => h heq.symm
    simp [get?, put, hne, h]

/-- Two steps that come to a value come to it one after the other. -/
theorem exists_of_bind_eq_ok {ε α β : Type} {first : Except ε α} {next : α → Except ε β} {b : β}
    (h : (first >>= next) = .ok b) : ∃ a, first = .ok a ∧ next a = .ok b := by
  cases first with
  | error cause => cases h
  | ok a => exact ⟨a, rfl, h⟩

/-- A write that is done puts a file where no directory is. -/
theorem exists_put_of_write (h : files.write path bytes = .ok files') :
    ∃ place, files.locate path = .ok place ∧ files.get? place ≠ some .directory ∧
      files' = files.put place (.file bytes) := by
  unfold write at h
  split at h
  · obtain ⟨place, -, h⟩ := exists_of_bind_eq_ok h
    obtain ⟨_, -, h⟩ := exists_of_bind_eq_ok h
    cases h
  · obtain ⟨place, hplace, h⟩ := exists_of_bind_eq_ok h
    split at h
    · cases h
    · rename_i hentry
      exact ⟨place, hplace, hentry, (Except.ok.inj h).symm⟩

theorem checkDirectory_eq_ok_iff :
    files.checkDirectory place = .ok () ↔ files.get? place = some .directory := by
  unfold checkDirectory
  split <;> simp_all

/-- A place where no directory is has the name of one that is not above. -/
theorem all_parentName_eq_false (h : files.get? place ≠ some .directory) :
    place.all (· == parentName) = false := by
  rw [← Bool.not_eq_true]
  exact fun hall => h (if_pos hall)

/-- Names that lead to a place still lead there when a file is put where no directory is. -/
theorem follow_put (hplace : files.get? place ≠ some .directory) {start target : List String}
    {names : List String} (h : files.follow start names = .ok target) :
    (files.put place (.file bytes)).follow start names = .ok target := by
  induction names generalizing start with
  | nil => exact h
  | cons name names ih =>
    rw [follow] at h ⊢
    obtain ⟨_, hstart, hrest⟩ := exists_of_bind_eq_ok h
    have hdirectory := checkDirectory_eq_ok_iff.mp hstart
    have hne : start ≠ place := fun heq => hplace (heq ▸ hdirectory)
    have hstart' : (files.put place (.file bytes)).checkDirectory start = .ok () := by
      rw [checkDirectory_eq_ok_iff, get?_put (all_parentName_eq_false hplace), if_neg hne,
        hdirectory]
    rw [hstart']
    change (if _ then _ else _) = _
    split_ifs at hrest ⊢ with hskip hup hlength
    · exact ih hrest
    · exact ih hrest
    · exact ih hrest

theorem read_of_locate (hlocate : files.locate path = .ok place)
    (hfile : files.get? place = some (.file bytes)) : files.read path = .ok bytes := by
  simp [read, hlocate, hfile, bind, Except.bind, pure, Except.pure]

/-- What a write that is done has done. -/
theorem wrote_of_write (h : files.write path bytes = .ok files') :
    Wrote files files' path bytes := by
  obtain ⟨place, hlocate, hplace, rfl⟩ := exists_put_of_write h
  have hget : ∀ other, (files.put place (.file bytes)).get? other =
      if other = place then some (.file bytes) else files.get? other :=
    get?_put (all_parentName_eq_false hplace) (.file bytes)
  have hfile := (hget place).trans (if_pos rfl)
  refine ⟨?_, place, hlocate, hfile, fun other hne => (hget other).trans (if_neg hne)⟩
  obtain ⟨_, hpath, hfollow⟩ := exists_of_bind_eq_ok hlocate
  refine read_of_locate ?_ hfile
  rw [locate, hpath]
  exact follow_put hplace hfollow

end Files

end Typography
