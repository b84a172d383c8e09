import JsonQuery.Proofs.Files
import JsonQuery.Proofs.Settings.Text
import JsonQuery.Settings.Storage

/-!
Settings that are saved are those that are loaded afterwards. Settings without a text are refused
before the file is touched, and what the last successful save has written stays through loads and
through saves that fail without writing.
-/

namespace JsonQuery

variable {σ : Type}

/-- Makes the directory that a file is in. -/
def Files.makeParent (files : Files (StateM σ)) (name : String) : StateM σ Bool :=
  match FileName.parent? name.toList with
  | none => pure true
  | some parent => files.makeDirectories (String.ofList parent)

/-- The directory of a file can be made, and the bytes can then be written to the file. -/
def Files.CanWrite (files : Files (StateM σ)) (name : String) (bytes : List UInt8) (state : σ) :
    Prop :=
  (files.makeParent name state).1 = true ∧
    (files.write name bytes (files.makeParent name state).2).1 = true

theorem Files.Keeps.content_makeParent {files : Files (StateM σ)} {name : String}
    (h : files.Keeps name) {state : σ} {bytes : List UInt8}
    (hcontent : files.content name state = .ok bytes) :
    files.content name (files.makeParent name state).2 = .ok bytes := by
  unfold makeParent
  cases FileName.parent? name.toList with
  | none => exact hcontent
  | some parent => exact h.content_makeDirectories _ state bytes hcontent

namespace Settings

variable {files : Files (StateM σ)} {name home : String} {settings : Settings} {state : σ}

/-- What saving to a file can do: give up before writing, fail to write, or write the text. -/
inductive Save (files : Files (StateM σ)) (settings : Settings) (name : String) (state : σ) :
    Except Fault Unit × σ → Prop where
  | refused {fault : Fault} (h : ∀ name, fault ≠ .unwritten name)
      (hcannot : settings.text? = none ∨ (files.makeParent name state).1 = false) :
      Save files settings name state (.error fault, (files.makeParent name state).2)
  | unwritten {text : String} (htext : settings.text? = some text)
      (hwrite : (files.write name (Text.encode text) (files.makeParent name state).2).1 = false) :
      Save files settings name state (.error (.unwritten name),
        (files.write name (Text.encode text) (files.makeParent name state).2).2)
  | written {text : String} (htext : settings.text? = some text)
      (hwrite : (files.write name (Text.encode text) (files.makeParent name state).2).1 = true) :
      Save files settings name state (.ok (),
        (files.write name (Text.encode text) (files.makeParent name state).2).2)

theorem bind_apply {α β : Type} (x : StateM σ α) (f : α → StateM σ β) (state : σ) :
    (x >>= f) state = f (x state).1 (x state).2 := rfl

theorem save_saveTo (files : Files (StateM σ)) (settings : Settings) (name : String) (state : σ) :
    Save files settings name state (saveTo files settings name state) := by
  have hnone : settings.text? = none → saveTo files settings name state =
      (if (files.makeParent name state).1 then pure (.error .unwritable)
      else pure (.error (.noDirectory (String.ofList ((FileName.parent? name.toList).getD []))))
        : StateM σ (Except Fault Unit)) (files.makeParent name state).2 := by
    intro htext
    unfold saveTo Files.makeParent
    rw [htext]
    cases FileName.parent? name.toList <;> rfl
  have hsome : ∀ text, settings.text? = some text → saveTo files settings name state =
      (if (files.makeParent name state).1 then do
        if ← files.write name (Text.encode text) then return .ok ()
        else return .error (.unwritten name)
      else pure (.error (.noDirectory (String.ofList ((FileName.parent? name.toList).getD []))))
        : StateM σ (Except Fault Unit)) (files.makeParent name state).2 := by
    intro text htext
    unfold saveTo Files.makeParent
    rw [htext]
    cases FileName.parent? name.toList <;> rfl
  cases htext : settings.text? with
  | none =>
    rw [hnone htext]
    split
    · exact .refused (fun _ => nofun) (.inl htext)
    · rename_i hparent
      exact .refused (fun _ => nofun) (.inr (Bool.not_eq_true _ ▸ hparent))
  | some text =>
    rw [hsome text htext]
    split
    · simp only [bind_apply]
      split
      · rename_i hwrite
        exact .written htext hwrite
      · rename_i hwrite
        exact .unwritten htext (Bool.not_eq_true _ ▸ hwrite)
    · rename_i hparent
      exact .refused (fun _ => nofun) (.inr (Bool.not_eq_true _ ▸ hparent))

/-- Settings without a text are refused, and nothing is written. -/
theorem saveTo_unwritable (h : settings.text? = none) :
    ∃ fault, saveTo files settings name state = (.error fault, (files.makeParent name state).2) := by
  have hsave := save_saveTo files settings name state
  generalize saveTo files settings name state = saved at hsave ⊢
  cases hsave with
  | refused => exact ⟨_, rfl⟩
  | unwritten htext =>
    rw [h] at htext
    cases htext
  | written htext =>
    rw [h] at htext
    cases htext

theorem saveTo_writable {text : String} (htext : settings.text? = some text)
    (h : files.CanWrite name (Text.encode text) state) :
    (saveTo files settings name state).1 = .ok () := by
  have hsave := save_saveTo files settings name state
  generalize saveTo files settings name state = saved at hsave ⊢
  cases hsave with
  | written => rfl
  | refused _ hcannot =>
    rcases hcannot with hnone | hparent
    · rw [htext] at hnone
      cases hnone
    · rw [h.1] at hparent
      cases hparent
  | unwritten htext' hwrite =>
    rw [htext] at htext'
    cases htext'
    rw [h.2] at hwrite
    cases hwrite

/-- A save that succeeds leaves the text of the settings in the file. -/
theorem content_saveTo (hkeeps : files.Keeps name)
    (h : (saveTo files settings name state).1 = .ok ()) :
    ∃ text, settings.text? = some text ∧
      files.content name (saveTo files settings name state).2 = .ok (Text.encode text) := by
  have hsave := save_saveTo files settings name state
  generalize saveTo files settings name state = saved at hsave h ⊢
  cases hsave with
  | written htext hwrite => exact ⟨_, htext, hkeeps.content_write _ _ hwrite⟩
  | refused => cases h
  | unwritten => cases h

/-- A save that fails without an attempt to write leaves the file. -/
theorem content_saveTo_refused (hkeeps : files.Keeps name) {fault : Fault}
    (h : (saveTo files settings name state).1 = .error fault) (hfault : fault ≠ .unwritten name)
    {bytes : List UInt8} (hcontent : files.content name state = .ok bytes) :
    files.content name (saveTo files settings name state).2 = .ok bytes := by
  have hsave := save_saveTo files settings name state
  generalize saveTo files settings name state = saved at hsave h ⊢
  cases hsave with
  | refused => exact hkeeps.content_makeParent hcontent
  | written => cases h
  | unwritten =>
    cases h
    exact absurd rfl hfault

theorem loadFrom_eq (files : Files (StateM σ)) (name : String) (state : σ) :
    loadFrom files name state =
      (ofBytes name (files.content name state), (files.read name state).2) := rfl

theorem ofBytes_encode {text : String} (h : ofText? text.toList = some settings) :
    ofBytes name (.ok (Text.encode text)) = .ok settings := by
  simp only [ofBytes, Text.decode?_encode, h]

theorem loadFrom_text {text : String} (h : ofText? text.toList = some settings)
    (hcontent : files.content name state = .ok (Text.encode text)) :
    (loadFrom files name state).1 = .ok settings := by
  rw [loadFrom_eq, hcontent, ofBytes_encode h]

theorem content_load (hkeeps : files.Keeps (fileName home)) (state : σ) :
    files.content (fileName home) (load files (some home) state).2 =
      files.content (fileName home) state := by
  have hload : (load files (some home) state).2 = (files.isThere (fileName home) state).2 ∨
      (load files (some home) state).2 =
        (files.read (fileName home) (files.isThere (fileName home) state).2).2 := by
    simp only [load, bind_apply]
    split
    · apply Or.inr
      rw [bind_apply, loadFrom_eq]
      cases ofBytes (fileName home)
        (files.content (fileName home) (files.isThere (fileName home) state).2) <;> rfl
    · exact .inl rfl
  rcases hload with h | h
  · rw [h, hkeeps.content_isThere]
  · rw [h, hkeeps.content_read, hkeeps.content_isThere]

theorem load_text (hkeeps : files.Keeps (fileName home)) {text : String}
    (h : ofText? text.toList = some settings)
    (hcontent : files.content (fileName home) state = .ok (Text.encode text)) :
    (load files (some home) state).1 = (settings, none) := by
  have hthere := hkeeps.isThere_of_content state _ hcontent
  rw [← hkeeps.content_isThere] at hcontent
  simp only [load, bind_apply, hthere, if_true]
  rw [loadFrom_text h hcontent]
  rfl

inductive Call where
  | save (settings : Settings)
  | load

inductive Event where
  | saved (settings : Settings) (result : Except Fault Unit)
  | loaded (settings : Settings) (fault : Option Fault)

def Call.perform (files : Files (StateM σ)) (home : String) : Call → StateM σ Event
  | save settings => do return .saved settings (← Settings.save files (some home) settings)
  | load => do
    let (settings, fault) ← Settings.load files (some home)
    return .loaded settings fault

def performAll (files : Files (StateM σ)) (home : String) (calls : List Call) :
    StateM σ (List Event) :=
  calls.mapM (Call.perform files home)

/-- The settings that have been saved, if they have. -/
def Event.saved? : Event → Option Settings
  | saved settings (.ok _) => some settings
  | _ => none

/-- An attempt to write has failed. -/
def Event.WriteFailed : Event → Prop
  | saved _ (.error (.unwritten _)) => True
  | _ => False

/-- The settings of the last save that succeeded. -/
def lastSaved? (events : List Event) : Option Settings := (events.filterMap Event.saved?).getLast?

/-- The file holds the text of the settings, if there are any. -/
def Stored (files : Files (StateM σ)) (home : String) (last : Option Settings) (state : σ) : Prop :=
  ∀ settings, last = some settings → ∃ text, settings.text? = some text ∧
    files.content (fileName home) state = .ok (Text.encode text)

theorem perform_save (files : Files (StateM σ)) (home : String) (settings : Settings) (state : σ) :
    Call.perform files home (.save settings) state =
      (.saved settings (saveTo files settings (fileName home) state).1,
        (saveTo files settings (fileName home) state).2) := rfl

/-- One call keeps the file in step with the last save that succeeded. -/
theorem Stored.perform {last : Option Settings} (hkeeps : files.Keeps (fileName home))
    (hstored : Stored files home last state) (call : Call)
    (hwrite : ¬ (call.perform files home state).1.WriteFailed) :
    Stored files home ((call.perform files home state).1.saved?.or last)
      (call.perform files home state).2 := by
  cases call with
  | load =>
    intro settings hlast
    obtain ⟨text, htext, hcontent⟩ := hstored settings hlast
    exact ⟨text, htext, (content_load hkeeps state).trans hcontent⟩
  | save settings =>
    rw [perform_save] at hwrite ⊢
    cases hresult : (saveTo files settings (fileName home) state).1 with
    | ok =>
      rintro _ ⟨⟩
      exact content_saveTo hkeeps hresult
    | error fault =>
      have hfault : fault ≠ .unwritten (fileName home) := by
        rintro rfl
        rw [hresult] at hwrite
        exact hwrite trivial
      intro settings' hlast
      obtain ⟨text, htext, hcontent⟩ := hstored settings' hlast
      exact ⟨text, htext, content_saveTo_refused hkeeps hresult hfault hcontent⟩

theorem lastSaved?_cons (event : Event) (events : List Event) :
    lastSaved? (event :: events) = (lastSaved? events).or event.saved? := by
  unfold lastSaved?
  cases h : event.saved? with
  | none => rw [List.filterMap_cons_none h, Option.or_none]
  | some settings => rw [List.filterMap_cons_some h, List.getLast?_cons, Option.or_some]

theorem performAll_cons (files : Files (StateM σ)) (home : String) (call : Call)
    (calls : List Call) (state : σ) :
    performAll files home (call :: calls) state =
      ((call.perform files home state).1 ::
        (performAll files home calls (call.perform files home state).2).1,
        (performAll files home calls (call.perform files home state).2).2) := by
  rw [performAll, List.mapM_cons]
  rfl

/-- So do calls one after the other. -/
theorem Stored.performAll {last : Option Settings} (hkeeps : files.Keeps (fileName home))
    (hstored : Stored files home last state) (calls : List Call)
    (hwrites : ∀ event ∈ (performAll files home calls state).1, ¬ event.WriteFailed) :
    Stored files home ((lastSaved? (performAll files home calls state).1).or last)
      (performAll files home calls state).2 := by
  induction calls generalizing last state with
  | nil => exact hstored
  | cons call calls ih =>
    rw [performAll_cons] at hwrites ⊢
    obtain ⟨hfirst, hrest⟩ := List.forall_mem_cons.mp hwrites
    rw [lastSaved?_cons, Option.or_assoc]
    exact ih (hstored.perform hkeeps call hfirst) hrest

/-- Saved settings are loaded again. What the file system does is taken as it is relied on: the
file keeps its bytes, and no attempt to write fails. -/
theorem load_saved (files : Files (StateM σ)) :
    (∀ name settings state, files.Keeps name →
      (Toml.integerBound ≤ settings.indentSize →
        (∃ fault, saveTo files settings name state =
          (.error fault, (files.makeParent name state).2)) ∧
        ∀ bytes, files.content name state = .ok bytes →
          files.content name (saveTo files settings name state).2 = .ok bytes) ∧
      (settings.indentSize < Toml.integerBound → ∃ text, settings.text? = some text ∧
        (files.CanWrite name (Text.encode text) state →
          (saveTo files settings name state).1 = .ok () ∧
          (loadFrom files name (saveTo files settings name state).2).1 = .ok settings))) ∧
    (∀ name text assigned settings state, Toml.DocumentText text.toList assigned →
      assigned.Pairwise (fun a b => a.key.Apart b.key) → GivenBy assigned settings →
      files.content name state = .ok (Text.encode text) →
      (loadFrom files name state).1 = .ok settings) ∧
    ∀ home calls state, files.Keeps (fileName home) →
      (∀ event ∈ (performAll files home calls state).1, ¬ event.WriteFailed) →
      ∀ settings, lastSaved? (performAll files home calls state).1 = some settings →
        (load files (some home) (performAll files home calls state).2).1 = (settings, none) := by
  refine ⟨fun name settings state hkeeps => ⟨fun hbound => ?_, fun hbound => ?_⟩, ?_, ?_⟩
  · have hnone := (text?_eq_none_iff settings).mpr hbound
    obtain ⟨fault, hsave⟩ : ∃ fault, saveTo files settings name state =
      (.error fault, (files.makeParent name state).2) := saveTo_unwritable hnone
    refine ⟨⟨fault, hsave⟩, fun bytes hcontent => ?_⟩
    rw [hsave]
    exact hkeeps.content_makeParent hcontent
  · have hsome : settings.text? ≠ none := by
      rw [ne_eq, text?_eq_none_iff]
      exact not_le.mpr hbound
    obtain ⟨text, htext⟩ := Option.ne_none_iff_exists'.mp hsome
    refine ⟨text, htext, fun hcan => ?_⟩
    have hsaved := saveTo_writable htext hcan
    obtain ⟨text', htext', hcontent⟩ := content_saveTo hkeeps hsaved
    exact ⟨hsaved, loadFrom_text (ofText?_text? htext') hcontent⟩
  · intro name text assigned settings state htext hapart hgiven hcontent
    exact loadFrom_text (ofText?_eq htext hapart hgiven) hcontent
  · intro home calls state hkeeps hwrites settings hlast
    have hstored : Stored files home none state := by
      rintro _ ⟨⟩
    have hall := hstored.performAll hkeeps calls hwrites
    rw [hlast] at hall
    obtain ⟨text, htext, hcontent⟩ := hall settings rfl
    exact load_text hkeeps (ofText?_text? htext) hcontent

theorem canWrite_memory (bytes : List UInt8) :
    FileTree.files.CanWrite (fileName "home") bytes FileTree.empty := by
  have hname : fileName "home" = "home/.config/pathquill/config.toml" := by decide +kernel
  have hparent : FileName.parent? (fileName "home").toList =
      some "home/.config/pathquill".toList := by decide +kernel
  rw [Files.CanWrite, Files.makeParent, hparent, hname]
  exact ⟨rfl, rfl⟩

theorem events_save_load (h : (saveTo files settings (fileName home) state).1 = .ok ()) :
    ∃ loaded fault, (performAll files home [.save settings, .load] state).1 =
      [.saved settings (.ok ()), .loaded loaded fault] := by
  rw [performAll_cons, perform_save, h]
  exact ⟨_, _, rfl⟩

/-- In memory: settings that are saved, settings that are not since no TOML integer holds their
indentation, a file that gives one setting beside another key, and a save and a load in turn. -/
theorem load_saved_memory :
    let settings : Settings := ⟨true, 4, false, true⟩
    let wide : Settings := ⟨true, 0x8000000000000000, false, true⟩
    let name := fileName "home"
    let saved := (saveTo FileTree.files settings name FileTree.empty).2
    let text := lineOf "other" "false" ++ lineOf "show_paths" "true"
    let tree := FileTree.empty.put ["x".toList] (.file (Text.encode text))
    let calls := [Call.save settings, Call.load]
    (loadFrom FileTree.files name saved).1 = .ok settings ∧
      (∃ fault, (saveTo FileTree.files wide "x" tree).1 = .error fault) ∧
      FileTree.files.content "x" (saveTo FileTree.files wide "x" tree).2 = .ok (Text.encode text) ∧
      (loadFrom FileTree.files "x" tree).1 = .ok ⟨false, 2, true, true⟩ ∧
      (load FileTree.files (some "home")
        (performAll FileTree.files "home" calls FileTree.empty).2).1 = (settings, none) := by
  intro settings wide name saved text tree calls
  obtain ⟨hfile, hdocument, hcalls⟩ := load_saved FileTree.files
  obtain ⟨_, -, hsettings⟩ :=
    (hfile name settings FileTree.empty (FileTree.keeps name)).2 (by decide)
  obtain ⟨hsaved, hloaded⟩ := hsettings (canWrite_memory _)
  have hcontent : FileTree.files.content "x" tree = .ok (Text.encode text) := rfl
  obtain ⟨⟨fault, hwide⟩, hkept⟩ := (hfile "x" wide tree (FileTree.keeps "x")).1 (by decide)
  have htext : Toml.DocumentText text.toList [⟨⟨[], "other"⟩, .boolean false⟩,
      ⟨⟨[], "show_paths"⟩, .boolean true⟩] := by
    have hend : Toml.LinesText [] [] := .last (.blank (.space Toml.spaces_nil))
    have hpaths := linesText_lineOf
      (plainKeyText_bare "show_paths" (by simp) (by simp [Toml.isBare]))
      (scalarText_boolean true) hend
    have hother := linesText_lineOf
      (plainKeyText_bare "other" (by simp) (by simp [Toml.isBare]))
      (scalarText_boolean false) hpaths
    apply Toml.DocumentText.plain
    simpa [text, booleanText] using hother
  have hgiven : GivenBy [⟨⟨[], "other"⟩, .boolean false⟩, ⟨⟨[], "show_paths"⟩, .boolean true⟩]
      ⟨false, 2, true, true⟩ :=
    ⟨.usual (by decide), .usual (by decide), .usual (by decide), .assigned (by simp)⟩
  have hread := hdocument "x" text _ _ tree htext
    (by simp [Toml.DottedKey.Apart, Toml.DottedKey.keys]) hgiven hcontent
  obtain ⟨_, _, hevents⟩ := events_save_load hsaved
  have hrun := hcalls "home" calls FileTree.empty (FileTree.keeps name)
  rw [hevents] at hrun
  exact ⟨hloaded, ⟨fault, congrArg Prod.fst hwide⟩, hkept _ hcontent, hread,
    hrun (by simp [Event.WriteFailed]) settings rfl⟩

end Settings

end JsonQuery
