import JsonQuery.Gzip.Huffman

/-!
Inflating deflated bytes. The data come in blocks, stored as they are or written in two prefix
codes: one for literal bytes and the lengths of copies, one for the distances of copies. The codes
of a block are fixed ones or stand at its front, written in a third code. A copy may reach back
beyond the first byte, to zeros.
-/

namespace JsonQuery.Gzip

structure Codes where
  literals : PrefixCode
  distances : PrefixCode

/-- The codes of blocks without codes of their own. -/
def Codes.fixed : Codes :=
  { literals := .ofLengths
      (List.replicate 144 8 ++ List.replicate 112 9 ++ List.replicate 24 7 ++ List.replicate 8 8)
    distances := .ofLengths (List.replicate 30 5) }

/-- The least length of each symbol, and how many bits are added to it. -/
def lengthTable : List (Nat × Nat) :=
  [(3, 0), (4, 0), (5, 0), (6, 0), (7, 0), (8, 0), (9, 0), (10, 0), (11, 1), (13, 1), (15, 1),
   (17, 1), (19, 2), (23, 2), (27, 2), (31, 2), (35, 3), (43, 3), (51, 3), (59, 3), (67, 4),
   (83, 4), (99, 4), (115, 4), (131, 5), (163, 5), (195, 5), (227, 5), (258, 0)]

/-- The least distance of each symbol, and how many bits are added to it. -/
def distanceTable : List (Nat × Nat) :=
  [(1, 0), (2, 0), (3, 0), (4, 0), (5, 1), (7, 1), (9, 2), (13, 2), (17, 3), (25, 3), (33, 4),
   (49, 4), (65, 5), (97, 5), (129, 6), (193, 6), (257, 7), (385, 7), (513, 8), (769, 8),
   (1025, 9), (1537, 9), (2049, 10), (3073, 10), (4097, 11), (6145, 11), (8193, 12), (12289, 12),
   (16385, 13), (24577, 13)]

/-- The value of a symbol of a table, with the bits added to it. -/
def tableValue? (table : List (Nat × Nat)) (symbol : Nat) (bits : Bits) : Option (Nat × Bits) := do
  let (least, width) ← table[symbol]?
  let (extra, bits) ← bits.number? width
  return (least + extra, bits)

def copy? (codes : Codes) (symbol : Nat) (bits : Bits) : Option ((Nat × Nat) × Bits) := do
  let (length, bits) ← tableValue? lengthTable (symbol - 257) bits
  let (symbol, bits) ← codes.distances.decode? bits
  let (distance, bits) ← tableValue? distanceTable symbol bits
  return ((length, distance), bits)

/-- The byte that stands `distance` bytes before the next one. Before the first byte there are
zeros. -/
def byteBefore (distance : Nat) (out : Array UInt8) : UInt8 :=
  if distance ≤ out.size then out.getD (out.size - distance) 0 else 0

/-- Repeats what stands `distance` bytes before, byte by byte. -/
def repeatBytes (distance : Nat) : (length : Nat) → Array UInt8 → Array UInt8
  | 0, out => out
  | length + 1, out => repeatBytes distance length (out.push (byteBefore distance out))

theorem count_tableValue? {table : List (Nat × Nat)} {symbol value : Nat} {bits rest : Bits}
    (h : tableValue? table symbol bits = some (value, rest)) : rest.count ≤ bits.count := by
  simp only [tableValue?, Option.bind_eq_bind, Option.bind_eq_some_iff, Option.pure_def,
    Option.some.injEq, Prod.mk.injEq] at h
  obtain ⟨⟨least, width⟩, -, ⟨extra, bits₁⟩, h₁, -, rfl⟩ := h
  have := Bits.count_number? h₁
  simp only
  omega

theorem count_copy? {codes : Codes} {symbol : Nat} {c : Nat × Nat} {bits rest : Bits}
    (h : copy? codes symbol bits = some (c, rest)) : rest.count < bits.count := by
  simp only [copy?, Option.bind_eq_bind, Option.bind_eq_some_iff, Option.pure_def,
    Option.some.injEq, Prod.mk.injEq] at h
  obtain ⟨⟨length, bits₁⟩, h₁, ⟨symbol', bits₂⟩, h₂, ⟨distance, bits₃⟩, h₃, -, rfl⟩ := h
  have := count_tableValue? h₁
  have := PrefixCode.count_decode? h₂
  have := count_tableValue? h₃
  simp only at *
  omega

inductive Token where
  | literal (byte : UInt8)
  | stop
  | copy (length distance : Nat)

def token? (codes : Codes) (bits : Bits) : Option (Token × Bits) := do
  let (symbol, bits) ← codes.literals.decode? bits
  if symbol < 256 then return (.literal (UInt8.ofNat symbol), bits)
  else if symbol = 256 then return (.stop, bits)
  else
    let ((length, distance), bits) ← copy? codes symbol bits
    return (.copy length distance, bits)

theorem count_token? {codes : Codes} {token : Token} {bits rest : Bits}
    (h : token? codes bits = some (token, rest)) : rest.count < bits.count := by
  simp only [token?, Option.bind_eq_bind, Option.bind_eq_some_iff] at h
  obtain ⟨⟨symbol, bits₁⟩, h₁, h⟩ := h
  have := PrefixCode.count_decode? h₁
  split at h
  · simp only [Option.pure_def, Option.some.injEq, Prod.mk.injEq] at h
    obtain ⟨-, rfl⟩ := h
    exact this
  · split at h
    · simp only [Option.pure_def, Option.some.injEq, Prod.mk.injEq] at h
      obtain ⟨-, rfl⟩ := h
      exact this
    · simp only [Option.bind_eq_some_iff, Option.pure_def, Option.some.injEq, Prod.mk.injEq] at h
      obtain ⟨⟨c, bits₂⟩, h₂, -, rfl⟩ := h
      have := count_copy? h₂
      simp only at *
      omega

def codedBlock? (codes : Codes) (out : Array UInt8) (bits : Bits) :
    Option (Array UInt8 × Bits) :=
  match _h : token? codes bits with
  | some (.literal byte, bits') => codedBlock? codes (out.push byte) bits'
  | some (.stop, bits') => some (out, bits')
  | some (.copy length distance, bits') =>
    codedBlock? codes (repeatBytes distance length out) bits'
  | none => none
  termination_by bits.count
  decreasing_by all_goals exact count_token? _h

theorem count_codedBlock? {codes : Codes} {out out' : Array UInt8} {bits rest : Bits}
    (h : codedBlock? codes out bits = some (out', rest)) : rest.count < bits.count := by
  fun_induction codedBlock? codes out bits with
  | case1 out bits byte bits' h₁ ih =>
    have := ih h
    have := count_token? h₁
    omega
  | case2 out bits bits' h₁ =>
    simp only [Option.some.injEq, Prod.mk.injEq] at h
    obtain ⟨-, rfl⟩ := h
    exact count_token? h₁
  | case3 out bits length distance bits' h₁ ih =>
    have := ih h
    have := count_token? h₁
    omega
  | case4 => simp at h

/-- A stored block: it begins at a whole byte with its length and the complement of it. -/
def storedBlock? (out : Array UInt8) (bits : Bits) : Option (Array UInt8 × Bits) :=
  match bits.toBytes with
  | a :: b :: c :: d :: bytes =>
    let length := a.toNat + 256 * b.toNat
    if length + (c.toNat + 256 * d.toNat) = 0xFFFF ∧ length ≤ bytes.length then
      some (out ++ (bytes.take length).toArray, .ofBytes (bytes.drop length))
    else none
  | _ => none

theorem count_storedBlock? {out out' : Array UInt8} {bits rest : Bits}
    (h : storedBlock? out bits = some (out', rest)) : rest.count ≤ bits.count := by
  unfold storedBlock? at h
  split at h
  · rename_i a b c d bytes hb
    simp only at h
    split at h
    · simp only [Option.some.injEq, Prod.mk.injEq] at h
      obtain ⟨-, rfl⟩ := h
      have hl := congrArg List.length hb
      have := bits.read.isLt
      unfold Bits.toBytes at hl
      split at hl
      · simp only [Bits.count, Bits.ofBytes, List.length_drop, List.length_cons, Fin.val_zero] at *
        omega
      · simp only [Bits.count, Bits.ofBytes, List.length_drop, List.length_cons, Fin.val_zero] at *
        omega
    · simp at h
  · simp at h

/-- The order in which the lengths of the third code are written. -/
def lengthOrder : List Nat := [16, 17, 18, 0, 8, 7, 9, 6, 10, 5, 11, 4, 12, 3, 13, 2, 14, 1, 15]

def triples? : (count : Nat) → Bits → Option (List Nat × Bits)
  | 0, bits => some ([], bits)
  | count + 1, bits => do
    let (n, bits) ← bits.number? 3
    let (ns, bits) ← triples? count bits
    return (n :: ns, bits)

theorem count_triples? {count : Nat} {ns : List Nat} {bits rest : Bits}
    (h : triples? count bits = some (ns, rest)) : rest.count ≤ bits.count := by
  induction count generalizing bits ns with
  | zero =>
    simp only [triples?, Option.some.injEq, Prod.mk.injEq] at h
    obtain ⟨-, rfl⟩ := h
    exact Nat.le_refl _
  | succ count ih =>
    simp only [triples?, Option.bind_eq_bind, Option.bind_eq_some_iff, Option.pure_def,
      Option.some.injEq, Prod.mk.injEq] at h
    obtain ⟨⟨n, bits₁⟩, h₁, ⟨ns', bits₂⟩, h₂, -, rfl⟩ := h
    have := Bits.count_number? h₁
    have := ih h₂
    simp only at *
    omega

/-- The length that a symbol of the third code repeats, its least count, and how many bits are
added to the count. -/
def lengthRun? (symbol : Nat) (done : List Nat) : Option (Nat × Nat × Nat) :=
  if symbol < 16 then some (symbol, 1, 0)
  else if symbol = 16 then done.head?.map fun last => (last, 3, 2)
  else if symbol = 17 then some (0, 3, 3)
  else some (0, 11, 7)

/-- One run of lengths, in front of those in `done`, the last of which comes first. -/
def moreLengths? (code : PrefixCode) (done : List Nat) (bits : Bits) :
    Option (List Nat × Bits) := do
  let (symbol, bits) ← code.decode? bits
  let (length, least, width) ← lengthRun? symbol done
  let (extra, bits) ← bits.number? width
  return (List.replicate (least + extra) length ++ done, bits)

theorem count_moreLengths? {code : PrefixCode} {done done' : List Nat} {bits rest : Bits}
    (h : moreLengths? code done bits = some (done', rest)) : rest.count < bits.count := by
  simp only [moreLengths?, Option.bind_eq_bind, Option.bind_eq_some_iff, Option.pure_def,
    Option.some.injEq, Prod.mk.injEq] at h
  obtain ⟨⟨symbol, bits₁⟩, h₁, ⟨length, least, width⟩, -, ⟨extra, bits₂⟩, h₂, -, rfl⟩ := h
  have := PrefixCode.count_decode? h₁
  have := Bits.count_number? h₂
  simp only at *
  omega

/-- Code lengths written in a code, up to a total number of them. -/
def lengths? (code : PrefixCode) (total : Nat) (done : List Nat) (bits : Bits) :
    Option (List Nat × Bits) :=
  if done.length < total then
    match _h : moreLengths? code done bits with
    | some (done', bits') => lengths? code total done' bits'
    | none => none
  else if done.length = total then some (done.reverse, bits)
  else none
  termination_by bits.count
  decreasing_by exact count_moreLengths? _h

theorem count_lengths? {code : PrefixCode} {total : Nat} {done ls : List Nat} {bits rest : Bits}
    (h : lengths? code total done bits = some (ls, rest)) : rest.count ≤ bits.count := by
  fun_induction lengths? code total done bits with
  | case1 done bits _ done' bits' h₁ ih =>
    have := ih h
    have := count_moreLengths? h₁
    omega
  | case2 => simp at h
  | case3 =>
    simp only [Option.some.injEq, Prod.mk.injEq] at h
    obtain ⟨-, rfl⟩ := h
    exact Nat.le_refl _
  | case4 => simp at h

/-- The code of some lengths, if a block may use it. -/
def usableCode? (lengths : List Nat) : Option PrefixCode :=
  let code := PrefixCode.ofLengths lengths
  if code.Complete ∨ code.Minimal then some code else none

def writtenCodes? (bits : Bits) : Option (Codes × Bits) := do
  let (literals, bits) ← bits.number? 5
  let (distances, bits) ← bits.number? 5
  let (written, bits) ← bits.number? 4
  if 29 < literals ∨ 29 < distances then none
  else
    let (ns, bits) ← triples? (written + 4) bits
    let written := lengthOrder.zip ns
    let code := PrefixCode.ofLengths
      ((List.range 19).map fun symbol => (written.lookup symbol).getD 0)
    if code.Complete then
      let (lengths, bits) ← lengths? code (literals + 257 + (distances + 1)) [] bits
      let literalCode ← usableCode? (lengths.take (literals + 257))
      let distanceCode ← usableCode? (lengths.drop (literals + 257))
      return (⟨literalCode, distanceCode⟩, bits)
    else none

theorem count_writtenCodes? {codes : Codes} {bits rest : Bits}
    (h : writtenCodes? bits = some (codes, rest)) : rest.count ≤ bits.count := by
  simp only [writtenCodes?, Option.bind_eq_bind, Option.bind_eq_some_iff] at h
  obtain ⟨⟨a, bits₁⟩, h₁, ⟨b, bits₂⟩, h₂, ⟨c, bits₃⟩, h₃, h⟩ := h
  have := Bits.count_number? h₁
  have := Bits.count_number? h₂
  have := Bits.count_number? h₃
  split at h
  · simp at h
  · simp only [Option.bind_eq_some_iff] at h
    obtain ⟨⟨ns, bits₄⟩, h₄, h⟩ := h
    have := count_triples? h₄
    split at h
    · simp only [Option.bind_eq_some_iff, Option.pure_def, Option.some.injEq, Prod.mk.injEq] at h
      obtain ⟨⟨ls, bits₅⟩, h₅, _, -, _, -, -, rfl⟩ := h
      have := count_lengths? h₅
      simp only at *
      omega
    · simp at h

def block? (kind : Nat) (out : Array UInt8) (bits : Bits) : Option (Array UInt8 × Bits) :=
  if kind = 0 then storedBlock? out bits
  else if kind = 1 then codedBlock? .fixed out bits
  else if kind = 2 then do
    let (codes, bits) ← writtenCodes? bits
    codedBlock? codes out bits
  else none

theorem count_block? {kind : Nat} {out out' : Array UInt8} {bits rest : Bits}
    (h : block? kind out bits = some (out', rest)) : rest.count ≤ bits.count := by
  unfold block? at h
  split at h
  · exact count_storedBlock? h
  · split at h
    · exact Nat.le_of_lt (count_codedBlock? h)
    · split at h
      · simp only [Option.bind_eq_bind, Option.bind_eq_some_iff] at h
        obtain ⟨⟨codes, bits₁⟩, h₁, h₂⟩ := h
        have := count_writtenCodes? h₁
        have := count_codedBlock? h₂
        simp only at *
        omega
      · simp at h

/-- The content of all blocks up to the last one, added to `out`, and the bytes after them. -/
def blocks? (out : Array UInt8) (bits : Bits) : Option (Array UInt8 × List UInt8) :=
  match _h : bits.number? 3 with
  | none => none
  | some (header, bits') =>
    match _hb : block? (header / 2) out bits' with
    | none => none
    | some (out', bits'') =>
      if header % 2 = 1 then some (out', bits''.toBytes) else blocks? out' bits''
  termination_by bits.count
  decreasing_by
    have := Bits.count_number? _h
    have := count_block? _hb
    omega

/-- The content of deflated bytes, and the bytes after them. -/
def inflate? (bytes : List UInt8) : Option (Array UInt8 × List UInt8) :=
  blocks? #[] (.ofBytes bytes)

end JsonQuery.Gzip
