import JsonQuery.Files.Tree
import JsonQuery.Proofs.Text.Order
import JsonQuery.Source

/-!
Whether bytes are gzipped can be told from the bytes themselves. Every member begins with two bytes
with which no text in UTF-8 begins: the first one is a character of its own, and the second one
begins no character. So standard input, which has no name, is read as a file of the right name is.
-/

namespace JsonQuery

namespace Text

theorem encode_of_decode? {bytes : List UInt8} {t : String} (h : decode? bytes = some t) :
    encode t = bytes := by
  unfold decode? String.fromUTF8? at h
  split at h
  · cases h
    rfl
  · cases h

/-- A byte from 0x80 to 0xBF begins no character, and a smaller one is a character of its own. -/
theorem codePointBytes_cases (n : Nat) :
    (n < 0x80 ∧ codePointBytes n = [n]) ∨
      ∃ first rest, 0xC0 ≤ first ∧ codePointBytes n = first :: rest := by
  unfold codePointBytes
  split
  · rename_i hn
    exact .inl ⟨hn, rfl⟩
  · apply Or.inr
    split
    · exact ⟨_, _, by omega, rfl⟩
    · split <;> exact ⟨_, _, by omega, rfl⟩

theorem not_magic_prefix_encode (t : String) : ¬ Gzip.magic <+: encode t := by
  intro h
  have hbytes : [0x1F, 0x8B] <+: byteValues t := h.map UInt8.toNat
  rw [byteValues_eq] at hbytes
  cases hcs : t.toList with
  | nil =>
    rw [hcs] at hbytes
    cases List.prefix_nil.mp hbytes
  | cons c cs =>
    rw [hcs, List.flatMap_cons] at hbytes
    rcases codePointBytes_cases c.toNat with ⟨-, hc⟩ | ⟨first, rest, hfirst, hc⟩
    · rw [hc, List.singleton_append, List.cons_prefix_cons] at hbytes
      obtain ⟨-, hbytes⟩ := hbytes
      cases cs with
      | nil => cases List.prefix_nil.mp hbytes
      | cons d cs =>
        rw [List.flatMap_cons] at hbytes
        rcases codePointBytes_cases d.toNat with ⟨hd, hcode⟩ | ⟨first, rest, hfirst, hcode⟩
        · rw [hcode, List.singleton_append, List.cons_prefix_cons] at hbytes
          omega
        · rw [hcode, List.cons_append, List.cons_prefix_cons] at hbytes
          omega
    · rw [hc, List.cons_append, List.cons_prefix_cons] at hbytes
      omega

end Text

theorem Gzip.magic_prefix_of_content? {bytes content : List UInt8}
    (h : content? bytes = some content) : magic <+: bytes := by
  unfold content? at h
  obtain ⟨rest, hheader, -⟩ := Option.bind_eq_some_iff.mp h
  unfold afterHeader? at hheader
  split at hheader
  · cases hheader
  · rename_i hfront
    have htake : bytes.take 2 = magic := by
      by_contra hne
      exact hfront (.inl hne)
    rw [← htake]
    exact List.take_prefix 2 bytes

namespace Source

theorem magic_prefix_of_gunzipped? {bytes : List UInt8} {t : String}
    (h : gunzipped? bytes = some t) : Gzip.magic <+: bytes := by
  obtain ⟨content, hcontent, -⟩ := Option.bind_eq_some_iff.mp h
  exact Gzip.magic_prefix_of_content? hcontent

theorem not_magic_prefix_of_decode? {bytes : List UInt8} {t : String}
    (h : Text.decode? bytes = some t) : ¬ Gzip.magic <+: bytes := by
  rw [← Text.encode_of_decode? h]
  exact Text.not_magic_prefix_encode t

theorem text_eq_ok_iff {bytes : List UInt8} {t : String} :
    text bytes = .ok t ↔ gunzipped? bytes = some t ∨ Text.decode? bytes = some t := by
  unfold text
  split
  · rename_i hmagic
    have hnone : Text.decode? bytes ≠ some t := fun h => not_magic_prefix_of_decode? h hmagic
    cases gunzipped? bytes <;> simp [hnone]
  · rename_i hmagic
    have hnone : gunzipped? bytes ≠ some t := fun h => hmagic (magic_prefix_of_gunzipped? h)
    cases Text.decode? bytes <;> simp [hnone]

theorem fileText_gzipped {name : String} (hname : isGzipped name = true) {bytes : List UInt8}
    {t : String} : fileText name (.ok bytes) = .ok t ↔ gunzipped? bytes = some t := by
  rw [fileText, if_pos hname]
  cases gunzipped? bytes <;> simp

theorem fileText_plain {name : String} (hname : isGzipped name = false) {bytes : List UInt8}
    {t : String} : fileText name (.ok bytes) = .ok t ↔ Text.decode? bytes = some t := by
  rw [fileText, if_neg (by simp [hname])]
  cases Text.decode? bytes <;> simp

section Load

variable {σ : Type} {files : Files (StateM σ)} {input : StateM σ (Option (List UInt8))}
  {bytes : List UInt8} {s s' : σ} {t : String}

theorem load_file_eq {name : String} (hread : (files.read name s).1 = .ok bytes) :
    (load files input (.file name) s).1 = fileText name (.ok bytes) := by
  rw [← hread]
  rfl

theorem load_input_eq_ok_iff : (load files (pure (some bytes)) .input s).1 = .ok t ↔
    text bytes = .ok t := by
  show inputText (some bytes) = .ok t ↔ text bytes = .ok t
  rw [inputText]
  cases text bytes <;> simp

/-- Bytes without a name give a text exactly if a file that holds them gives it, under a name that
says that it is gzipped or under one that does not; they never give one under both. The bytes of any
text give that text. -/
theorem text_eq_ok_iff_load {zipped plain : String} (hzipped : isGzipped zipped = true)
    (hplain : isGzipped plain = false) (hread : (files.read zipped s).1 = .ok bytes)
    (hread' : (files.read plain s').1 = .ok bytes) :
    (∀ t, text bytes = .ok t ↔
      (load files input (.file zipped) s).1 = .ok t ∨
        (load files input (.file plain) s').1 = .ok t) ∧
    (¬ ∃ t u, (load files input (.file zipped) s).1 = .ok t ∧
      (load files input (.file plain) s').1 = .ok u) ∧
    (∀ t, (load files (pure (some bytes)) .input s).1 = .ok t ↔ text bytes = .ok t) ∧
    ∀ t, text (Text.encode t) = .ok t := by
  rw [load_file_eq hread, load_file_eq hread']
  refine ⟨fun t => ?_, ?_, fun t => load_input_eq_ok_iff, fun t => ?_⟩
  · rw [text_eq_ok_iff, fileText_gzipped hzipped, fileText_plain hplain]
  · rintro ⟨t, u, ht, hu⟩
    rw [fileText_gzipped hzipped] at ht
    rw [fileText_plain hplain] at hu
    exact not_magic_prefix_of_decode? hu (magic_prefix_of_gunzipped? ht)
  · exact text_eq_ok_iff.mpr (.inr (Text.decode?_encode t))

end Load

/-- A text in two files: under the name that says that it is gzipped it is refused. -/
theorem text_eq_ok_iff_load_plain :
    let bytes := Text.encode "[1]"
    let tree := (FileTree.empty.put ["a.gz".toList] (.file bytes)).put ["gz".toList] (.file bytes)
    let loaded (name : String) := (load FileTree.files (pure none) (.file name) tree).1
    (isGzipped "a.gz" = true ∧ isGzipped "gz" = false) ∧ text bytes = .ok "[1]" ∧
      loaded "gz" = .ok "[1]" ∧ ¬ ∃ t, loaded "a.gz" = .ok t := by
  intro bytes tree loaded
  have hnames : isGzipped "a.gz" = true ∧ isGzipped "gz" = false := by decide
  have hread : (FileTree.files.read "a.gz" tree).1 = .ok bytes := rfl
  have hread' : (FileTree.files.read "gz" tree).1 = .ok bytes := rfl
  obtain ⟨-, hone, -, hencode⟩ := text_eq_ok_iff_load hnames.1 hnames.2 hread hread'
  have hplain : loaded "gz" = .ok "[1]" := by
    rw [show loaded "gz" = _ from load_file_eq hread', fileText_plain hnames.2]
    exact Text.decode?_encode "[1]"
  exact ⟨hnames, hencode "[1]", hplain, fun ⟨t, ht⟩ => hone ⟨t, _, ht, hplain⟩⟩

end Source

end JsonQuery
