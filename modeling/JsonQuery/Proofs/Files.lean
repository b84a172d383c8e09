import JsonQuery.Files.Tree

/-!
What may be relied on of a file, and that files in memory can be relied on.
-/

namespace JsonQuery

namespace Files

variable {σ : Type}

/-- What a file gives when it is read. -/
def content (files : Files (StateM σ)) (name : String) (state : σ) :
    Except FileFault (List UInt8) :=
  (files.read name state).1

/-- A file keeps its bytes: it gives those that were written to it, for as long as nothing but
reading, asking and making directories happens. -/
structure Keeps (files : Files (StateM σ)) (name : String) : Prop where
  content_read : ∀ state, files.content name (files.read name state).2 = files.content name state
  content_isThere :
    ∀ state, files.content name (files.isThere name state).2 = files.content name state
  content_makeDirectories : ∀ directory state bytes, files.content name state = .ok bytes →
    files.content name (files.makeDirectories directory state).2 = .ok bytes
  content_write : ∀ bytes state, (files.write name bytes state).1 = true →
    files.content name (files.write name bytes state).2 = .ok bytes
  isThere_of_content : ∀ state bytes, files.content name state = .ok bytes →
    (files.isThere name state).1 = true

end Files

namespace FileTree

/-- Everything that is there in one tree is there in the other one, too. -/
def Extends (tree' tree : FileTree) : Prop :=
  ∀ place entry, tree place = some entry → tree' place = some entry

theorem Extends.refl (tree : FileTree) : tree.Extends tree := fun _ _ h => h

theorem Extends.trans {tree₁ tree₂ tree₃ : FileTree} (h : tree₃.Extends tree₂)
    (h' : tree₂.Extends tree₁) : tree₃.Extends tree₁ :=
  fun place entry hentry => h place entry (h' place entry hentry)

theorem extends_put {tree : FileTree} {place : Place} (h : tree place = none) (entry : Entry) :
    (tree.put place entry).Extends tree := by
  intro place' entry' hentry
  rw [put_of_ne]
  · exact hentry
  · rintro rfl
    rw [h] at hentry
    cases hentry

/-- Only directories lie on the way, so only they matter for where it leads. -/
theorem walk_of_directories {tree tree' : FileTree}
    (h : ∀ place, tree place = some .directory → tree' place = some .directory)
    {pieces : List (List Char)} {place place' : Place}
    (hwalk : tree.walk place pieces = some place') : tree'.walk place pieces = some place' := by
  induction pieces generalizing place with
  | nil => exact hwalk
  | cons piece pieces ih =>
    rw [walk] at hwalk ⊢
    split at hwalk
    · rename_i hplace
      rw [h place hplace]
      exact ih hwalk
    · cases hwalk

theorem place?_of_directories {tree tree' : FileTree}
    (h : ∀ place, tree place = some .directory → tree' place = some .directory) {name : String}
    {place : Place} (hplace : tree.place? name = some place) : tree'.place? name = some place := by
  obtain ⟨pieces, hpieces, hwalk⟩ := Option.bind_eq_some_iff.mp hplace
  rw [place?, hpieces]
  exact walk_of_directories h hwalk

theorem read_eq_ok_iff (tree : FileTree) (name : String) (bytes : List UInt8) :
    tree.read name = .ok bytes ↔
      ∃ place, tree.place? name = some place ∧ tree place = some (.file bytes) := by
  have hplace : (tree.place? name).bind tree = some (.file bytes) ↔
      ∃ place, tree.place? name = some place ∧ tree place = some (.file bytes) :=
    Option.bind_eq_some_iff
  rw [← hplace, read]
  split <;> simp_all

theorem Extends.read_eq {tree tree' : FileTree} (h : tree'.Extends tree) {name : String}
    {bytes : List UInt8} (hread : tree.read name = .ok bytes) : tree'.read name = .ok bytes := by
  obtain ⟨place, hplace, hfile⟩ := (tree.read_eq_ok_iff name bytes).mp hread
  exact (tree'.read_eq_ok_iff name bytes).mpr
    ⟨place, place?_of_directories (fun place => h place .directory) hplace, h place _ hfile⟩

theorem extends_makeAlong (tree : FileTree) (place : Place) (pieces : List (List Char)) :
    (tree.makeAlong place pieces).2.Extends tree := by
  induction pieces generalizing tree place with
  | nil => exact .refl tree
  | cons piece pieces ih =>
    rw [makeAlong]
    split
    · exact ih tree _
    · exact .refl tree
    · rename_i hnone
      exact (ih _ _).trans (extends_put hnone .directory)

theorem extends_makeDirectories (tree : FileTree) (name : String) :
    (tree.makeDirectories name).2.Extends tree := by
  unfold makeDirectories
  split
  · exact .refl tree
  · split
    · exact extends_makeAlong tree [] _
    · exact .refl tree

/-- What is written is read back: the way to a file does not lead through it. -/
theorem read_write? {tree tree' : FileTree} {name : String} {bytes : List UInt8}
    (h : tree.write? name bytes = some tree') : tree'.read name = .ok bytes := by
  unfold write? at h
  split at h
  · rename_i place hplace
    split at h
    · cases h
    · rename_i hdirectory
      split at h
      · cases h
        refine (read_eq_ok_iff _ name bytes).mpr ⟨place, ?_, put_self tree place _⟩
        apply place?_of_directories _ hplace
        intro place' hplace'
        rw [put_of_ne]
        · exact hplace'
        · rintro rfl
          exact hdirectory hplace'
      · cases h
  · cases h

theorem write_of_some {tree tree' : FileTree} {name : String} {bytes : List UInt8}
    (h : tree.write? name bytes = some tree') : files.write name bytes tree = (true, tree') := by
  simp only [files, modifyGet, MonadStateOf.modifyGet, StateT.modifyGet, h]
  rfl

theorem write_of_none {tree : FileTree} {name : String} {bytes : List UInt8}
    (h : tree.write? name bytes = none) : files.write name bytes tree = (false, tree) := by
  simp only [files, modifyGet, MonadStateOf.modifyGet, StateT.modifyGet, h]
  rfl

theorem keeps (name : String) : files.Keeps name where
  content_read _ := rfl
  content_isThere _ := rfl
  content_makeDirectories directory state _ h := (extends_makeDirectories state directory).read_eq h
  content_write bytes state h := by
    cases hwrite : state.write? name bytes with
    | none =>
      rw [write_of_none hwrite] at h
      cases h
    | some tree =>
      rw [write_of_some hwrite]
      exact read_write? hwrite
  isThere_of_content state bytes h := by
    obtain ⟨place, hplace, hfile⟩ := (state.read_eq_ok_iff name bytes).mp h
    have hentry : (state.place? name).bind state = some (.file bytes) :=
      Option.bind_eq_some_iff.mpr ⟨place, hplace, hfile⟩
    exact Option.isSome_of_eq_some hentry

end FileTree

end JsonQuery
