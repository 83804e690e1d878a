import SingleFile.Workspace.Storage

/-!
# What a file system promises

A state gives every place at most one content. Reading and making folders change no
content, even where they fail; writing changes the content at the place that the path
names, and nothing where it fails. Which place a path names does not depend on the
state, and several paths can name the same place.

Main statement: a directory held as state keeps these promises.
-/

namespace SingleFile.Workspace

/-- A state that files are read from and written to, with what it promises. -/
class FileSystem (σ : Type) [Storage (StateM σ)] where
  Place : Type
  /-- The place that a path names. -/
  place? : String → Option Place
  /-- The content of the file at a place. -/
  content? : σ → Place → Option ByteArray
  content?_read (path : String) (state : σ) :
    content? ((Storage.read path : StateM σ _).run state).2 = content? state
  /-- What is read is the content at the place that the path names. -/
  exists_place_of_read {path : String} {state : σ} {bytes : ByteArray} :
    ((Storage.read path : StateM σ _).run state).1 = some bytes →
      ∃ place, place? path = some place ∧ content? state place = some bytes
  content?_makeFolders (path : String) (state : σ) :
    content? ((Storage.makeFolders path : StateM σ _).run state).2 = content? state
  content?_write_of_failed {path : String} {bytes : ByteArray} {state : σ} :
    ((Storage.write path bytes : StateM σ _).run state).1 = false →
      content? ((Storage.write path bytes : StateM σ _).run state).2 = content? state
  /-- What is written is the content at the place that the path names, and only there. -/
  exists_place_of_write {path : String} {bytes : ByteArray} {state : σ} :
    ((Storage.write path bytes : StateM σ _).run state).1 = true →
      ∃ place, place? path = some place ∧
        content? ((Storage.write path bytes : StateM σ _).run state).2 place = some bytes ∧
        ∀ other, other ≠ place →
          content? ((Storage.write path bytes : StateM σ _).run state).2 other =
            content? state other

namespace Directory

/-! ## Entries -/

theorem lookup_cons_eq (location other : Location) (entry : Entry)
    (entries : List (Location × Entry)) :
    ((location, entry) :: entries).lookup other =
      if other = location then some entry else entries.lookup other := by
  by_cases same : other = location
  · simp [same]
  · simp [List.lookup_cons, beq_false_of_ne same, same]

theorem lookup_put (location other : Location) (entry : Entry)
    (entries : List (Location × Entry)) :
    (put location entry entries).lookup other =
      if other = location then some entry else entries.lookup other := by
  induction entries with
  | nil => exact lookup_cons_eq location other entry []
  | cons first entries ih =>
      rcases first with ⟨name, old⟩
      rw [put, lookup_cons_eq]
      by_cases here : name = location
      · rw [if_pos here, lookup_cons_eq, here]
        by_cases same : other = location
        · simp [same]
        · simp [same]
      · rw [if_neg here, lookup_cons_eq, ih]
        by_cases same : other = name
        · simp [here, same]
        · simp [same]

theorem entry?_set {location : Location} (proper : location ≠ []) (directory : Directory)
    (entry : Entry) (other : Location) :
    entry? (directory.set location entry) other =
      if other = location then some entry else directory.entry? other := by
  by_cases top : other = []
  · simp [top, entry?, Ne.symm proper]
  · simp [top, entry?, set, lookup_put]

theorem content?_set_file {location : Location} (proper : location ≠ [])
    (directory : Directory) (bytes : ByteArray) (other : Location) :
    (directory.set location (.file bytes)).content? other =
      if other = location then some bytes else directory.content? other := by
  by_cases same : other = location
  · simp [content?, entry?_set proper, same]
  · simp [content?, entry?_set proper, same]

/-- A new folder has no content, and there was none before. -/
theorem content?_set_folder {location : Location} {directory : Directory}
    (free : directory.entry? location = none) :
    (directory.set location .folder).content? = directory.content? := by
  have proper : location ≠ [] := by
    rintro rfl
    cases free
  funext other
  by_cases same : other = location
  · simp [content?, entry?_set proper, same, free]
  · simp [content?, entry?_set proper, same]

/-! ## Paths -/

/-- The location that a path names: its segments are followed whether or not there are
folders on the way. -/
def place? (path : String) : Option Location :=
  if isUsable path then (segments path).foldlM follow [] else none

theorem foldlM_follow_of_walk? {directory : Directory} {location last : Location}
    {segments : List String} (walked : directory.walk? location segments = some last) :
    segments.foldlM follow location = some last := by
  induction segments generalizing location with
  | nil => exact walked
  | cons segment segments ih =>
      simp only [walk?] at walked
      split at walked
      next =>
        rcases Option.bind_eq_some_iff.1 walked with ⟨next, followed, walked⟩
        simp [List.foldlM_cons, followed, ih walked]
      next => simp at walked

theorem place?_of_locate? {directory : Directory} {path : String} {location : Location}
    (located : directory.locate? path = some location) : place? path = some location := by
  simp only [locate?] at located
  split at located
  next usable =>
    rw [place?, if_pos usable]
    exact foldlM_follow_of_walk? located
  next => simp at located

theorem follow_of_isName {name : String} (isName : isName name = true) (folder : Location) :
    follow folder name = some (folder ++ [name]) := by
  simp only [Workspace.isName, Bool.and_eq_true, decide_eq_true_eq] at isName
  simp [follow, isName.1.1.1, isName.1.1.2, isName.1.2]

theorem place?_of_target? {directory : Directory} {path : String} {location : Location}
    (target : directory.target? path = some location) :
    place? path = some location ∧ location ≠ [] := by
  simp only [target?] at target
  split at target
  next => simp at target
  next name last =>
    split at target
    next valid =>
      rw [Bool.and_eq_true] at valid
      split at target
      next => simp at target
      next folder walked =>
        split at target
        next =>
          cases target
          refine ⟨?_, by simp⟩
          rcases List.getLast?_eq_some_iff.1 last with ⟨front, shape⟩
          rw [shape, List.dropLast_concat] at walked
          rw [place?, if_pos valid.1, shape, List.foldlM_append, foldlM_follow_of_walk? walked]
          simp [follow_of_isName valid.2]
        next => simp at target
    next => simp at target

/-! ## Promises -/

theorem content?_makeFoldersAt (directory : Directory) (location : Location)
    (segments : List String) :
    (directory.makeFoldersAt location segments).1.content? = directory.content? := by
  fun_induction makeFoldersAt directory location segments with
  | case1 => rfl
  | case2 => rfl
  | case3 => assumption
  | case4 => rfl
  | case5 directory _ _ _ next _ free _ ih => rw [ih, content?_set_folder free]
  | case6 => rfl

theorem content?_makeFolders (directory : Directory) (path : String) :
    (directory.makeFolders path).1.content? = directory.content? := by
  rw [makeFolders]
  split
  next => exact content?_makeFoldersAt directory [] (segments path)
  next => rfl

theorem exists_place_of_read? {directory : Directory} {path : String} {bytes : ByteArray}
    (read : directory.read? path = some bytes) :
    ∃ location, place? path = some location ∧ directory.content? location = some bytes := by
  rcases Option.bind_eq_some_iff.1 read with ⟨location, located, content⟩
  exact ⟨location, place?_of_locate? located, content⟩

theorem exists_place_of_write? {directory written : Directory} {path : String}
    {bytes : ByteArray} (write : directory.write? path bytes = some written) :
    ∃ location, place? path = some location ∧ written.content? location = some bytes ∧
      ∀ other, other ≠ location → written.content? other = directory.content? other := by
  rcases Option.map_eq_some_iff.1 write with ⟨location, target, rfl⟩
  rcases place?_of_target? target with ⟨place, proper⟩
  refine ⟨location, place, by simp [content?_set_file proper], ?_⟩
  intro other different
  simp [content?_set_file proper, different]

theorem run_write (directory : Directory) (path : String) (bytes : ByteArray) :
    (Storage.write path bytes : StateM Directory Bool).run directory =
      match directory.write? path bytes with
      | some written => (true, written)
      | none => (false, directory) := rfl

end Directory

instance : FileSystem Directory where
  Place := Location
  place? := Directory.place?
  content? := Directory.content?
  content?_read _ _ := rfl
  exists_place_of_read read := Directory.exists_place_of_read? read
  content?_makeFolders path directory := Directory.content?_makeFolders directory path
  content?_write_of_failed {path bytes directory} failed := by
    rw [Directory.run_write] at failed ⊢
    cases write : directory.write? path bytes with
    | none => rfl
    | some written => simp [write] at failed
  exists_place_of_write {path bytes directory} done := by
    rw [Directory.run_write] at done ⊢
    cases write : directory.write? path bytes with
    | none => simp [write] at done
    | some written => exact Directory.exists_place_of_write? write

end SingleFile.Workspace
