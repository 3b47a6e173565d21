import CWB.Spec.SavedResult

/-! A query result that is saved and attached again. What the writer appends is what the reader
finds at its position; a file that is longer than an `int` can say is cut off by the reader,
and a proper part of a file is never accepted. -/

namespace CWB

open Option List

variable {v : Option (List (BitVec 32))}

namespace StoredResult

variable {field : Block} {p n : ℕ}

/-! Position arithmetic: the padding of the writer is the padding of the reader. -/

theorem length_header (magic : BitVec 32) (registry motherName : List Byte) :
    (header magic registry motherName).length =
      Block.align 4 (4 + registry.length + 1 + motherName.length + 1) := by
  simp only [header, Block.align, length_append, Block.length_ofWord, Block.length_ofString,
    length_replicate]
  omega

theorem readHeader_header {magic : BitVec 32} {registry motherName : List Byte}
    (hmagic : magic = SUBCORPMAGIC ∨ magic = SUBCORPMAGIC + 1) (hr : 0 ∉ registry) (hm : 0 ∉ motherName)
    (rest : Block) :
    readHeader (header magic registry motherName ++ rest) =
      some (magic, registry, motherName, (header magic registry motherName).length) := by
  have hat : Block.At (header magic registry motherName ++ rest) 0 (header magic registry motherName) :=
    Block.at_refl _ rest
  set file := header magic registry motherName ++ rest with hfile
  have hstr := hat.skip
  rw [Nat.zero_add, Block.length_ofWord] at hstr
  have hname := hstr.skip
  rw [Block.length_ofString, ← Nat.add_assoc] at hname
  have hnot : ¬(magic ≠ SUBCORPMAGIC ∧ magic ≠ SUBCORPMAGIC + 1) := by
    obtain h | h := hmagic <;> simp [h]
  rw [length_header]
  simp only [readHeader, Block.readWord_ofWord hat.left, bind_eq_bind, bind_some, if_neg hnot,
    Block.readString_ofString hr hstr.left, Block.readString_ofString hm hname.left, Option.pure_def]

theorem length_rangeWords (range : List (BitVec 32 × BitVec 32)) :
    (rangeWords range).length = 2 * range.length := by
  induction range with
  | nil => rfl
  | cons r range ih =>
    have h : rangeWords (r :: range) = r.1 :: r.2 :: rangeWords range := rfl
    rw [h, length_cons, length_cons, ih, length_cons]
    omega

theorem pairWords_rangeWords (range : List (BitVec 32 × BitVec 32)) : pairWords (rangeWords range) = range := by
  induction range with
  | nil => rfl
  | cons r range ih =>
    have h : rangeWords (r :: range) = r.1 :: r.2 :: rangeWords range := rfl
    rw [h, pairWords, ih]

/-! The vectors: what the reader finds where the writer put them. -/

theorem readOptionalVector_at {size : BitVec 32} (hpos : 0 < size.toInt)
    (hv : ∀ ws, v = some ws → ws.length = size.toNat) (h : field.At p (optionalVector size v)) :
    readOptionalVector field size.toNat p = some (v, p + (optionalVector size v).length) := by
  cases v with
  | none =>
    have hword := Block.readWord_ofWord (w := 0) h
    simp [readOptionalVector, hword, optionalVector]
  | some ws =>
    have hlen := hv ws rfl
    have hat : field.At p (Block.ofWord size ++ Block.ofWords ws) := h
    have hwords := Block.readWords_ofWords hat.skip
    rw [Block.length_ofWord, hlen] at hwords
    simp only [readOptionalVector, Block.readWord_ofWord hat.left, bind_eq_bind, bind_some,
      if_pos hpos, hwords, Option.pure_def]
    simp only [optionalVector, length_append, Block.length_ofWord, Block.length_ofWords, hlen,
      Nat.add_assoc]

/-- The vectors of a file: everything after the header. -/
def body (cl : StoredResult) : Block :=
  Block.ofWord cl.size ++
    if 0 < cl.size.toInt then
      Block.ofWords (rangeWords cl.range) ++ (optionalVector cl.size cl.sortidx ++
        (optionalVector cl.size cl.targets ++ optionalVector cl.size cl.keywords))
    else []

/-- A vector is not stored, and not read, for a result without ranges. -/
def keptVector (cl : StoredResult) (v : Option (List (BitVec 32))) : Option (List (BitVec 32)) :=
  if 0 < cl.size.toInt then v else none

variable {cl : StoredResult}

theorem WellFormed.size_zero (h : cl.WellFormed) (hpos : ¬0 < cl.size.toInt) : cl.size.toNat = 0 := by
  have hnn := h.size_nonneg
  have hlt := cl.size.isLt
  rw [BitVec.toInt_eq_toNat_cond] at hnn hpos
  split_ifs at hnn hpos <;> omega

theorem readVectors_body (h : cl.WellFormed) (hat : field.At p cl.body) :
    readVectors field p = some ⟨cl.size, cl.range, cl.keptVector cl.sortidx, cl.keptVector cl.targets,
      cl.keptVector cl.keywords, p + cl.body.length⟩ := by
  have hsize := Block.readWord_ofWord hat.left
  by_cases hpos : 0 < cl.size.toInt
  · simp only [body, if_pos hpos] at hat ⊢
    have hranges := hat.skip
    have hidx := hranges.skip
    have htargets := hidx.skip
    have hkeywords := htargets.skip
    have hwords := Block.readWords_ofWords hranges.left
    rw [Block.length_ofWord] at hwords hidx htargets hkeywords
    rw [length_rangeWords, h.range_length] at hwords
    rw [Block.length_ofWords, length_rangeWords, h.range_length, ← Nat.mul_assoc] at hidx htargets hkeywords
    simp only [readVectors, hsize, bind_eq_bind, bind_some, if_pos hpos, hwords,
      readOptionalVector_at hpos h.sortidx_length hidx.left,
      readOptionalVector_at hpos h.targets_length htargets.left,
      readOptionalVector_at hpos h.keywords_length hkeywords, pairWords_rangeWords, Option.pure_def,
      keptVector]
    simp only [length_append, Block.length_ofWord, Block.length_ofWords, length_rangeWords,
      h.range_length, ← Nat.mul_assoc, ← Nat.add_assoc]
  · have hrange : cl.range = [] := by
      apply eq_nil_of_length_eq_zero
      rw [h.range_length, h.size_zero hpos]
    simp only [readVectors, hsize, bind_eq_bind, bind_some, if_neg hpos, Option.pure_def, keptVector,
      hrange, body, append_nil, Block.length_ofWord]

/-! A part of a file that is accepted is the whole file. -/

theorem readHeader_extend {r : BitVec 32 × List Byte × List Byte × ℕ} (h : readHeader field = some r)
    (more : Block) : readHeader (field ++ more) = some r := by
  simp only [readHeader, bind_eq_bind, bind_eq_some_iff] at h ⊢
  obtain ⟨magic, hmagic, h⟩ := h
  refine ⟨magic, (Block.readWord_extend hmagic more).1, ?_⟩
  split_ifs at h ⊢
  simp only [bind_eq_some_iff] at h ⊢
  obtain ⟨registry, hreg, motherName, hname, h⟩ := h
  exact ⟨registry, (Block.readString_extend hreg more).1, motherName, (Block.readString_extend hname more).1, h⟩

theorem readOptionalVector_extend {q : ℕ} (h : readOptionalVector field n p = some (v, q)) (more : Block) :
    readOptionalVector (field ++ more) n p = some (v, q) ∧ q ≤ field.length := by
  simp only [readOptionalVector, bind_eq_bind, bind_eq_some_iff] at h ⊢
  obtain ⟨count, hcount, h⟩ := h
  obtain ⟨hcount', hle⟩ := Block.readWord_extend hcount more
  split_ifs at h with hpos
  · obtain ⟨ws, hws, hv⟩ := bind_eq_some_iff.mp h
    obtain ⟨hws', hle'⟩ := Block.readWords_extend hle hws more
    cases hv
    refine ⟨⟨count, hcount', ?_⟩, hle'⟩
    rw [if_pos hpos, hws']
    rfl
  · cases h
    refine ⟨⟨count, hcount', ?_⟩, hle⟩
    rw [if_neg hpos]
    rfl

theorem readVectors_extend {v : Vectors} (h : readVectors field p = some v) (more : Block) :
    readVectors (field ++ more) p = some v ∧ v.stop ≤ field.length := by
  simp only [readVectors, bind_eq_bind, bind_eq_some_iff] at h ⊢
  obtain ⟨size, hsize, h⟩ := h
  obtain ⟨hsize', hle⟩ := Block.readWord_extend hsize more
  split_ifs at h with hpos
  · simp only [bind_eq_some_iff, Prod.exists] at h
    obtain ⟨words, hwords, sortidx, p1, h1, targets, p2, h2, keywords, p3, h3, hv⟩ := h
    obtain ⟨hwords', -⟩ := Block.readWords_extend hle hwords more
    obtain ⟨h1', -⟩ := readOptionalVector_extend h1 more
    obtain ⟨h2', -⟩ := readOptionalVector_extend h2 more
    obtain ⟨h3', hle3⟩ := readOptionalVector_extend h3 more
    cases hv
    refine ⟨⟨size, hsize', ?_⟩, hle3⟩
    rw [if_pos hpos, hwords']
    simp [h1', h2', h3']
  · cases h
    refine ⟨⟨size, hsize', ?_⟩, hle⟩
    rw [if_neg hpos]
    rfl

theorem fileContents_eq (cl : StoredResult) :
    cl.fileContents = header (SUBCORPMAGIC + 1) cl.registry cl.motherName ++ cl.body := rfl

/-- The bytes of the file: the header up to a multiple of four, the size, and for a result
with ranges the vectors with their counts. -/
def fileBytes (cl : StoredResult) : ℕ :=
  let vectorBytes (v : Option (List (BitVec 32))) := if v.isSome then 4 + 4 * cl.size.toNat else 4
  4 + 4 * ((cl.registry.length + cl.motherName.length + 5) / 4) + 4 +
    if 0 < cl.size.toInt then
      8 * cl.size.toNat + vectorBytes cl.sortidx + vectorBytes cl.targets + vectorBytes cl.keywords
    else 0

theorem length_optionalVector {size : BitVec 32} (hv : ∀ ws, v = some ws → ws.length = size.toNat) :
    (optionalVector size v).length = if v.isSome then 4 + 4 * size.toNat else 4 := by
  cases v with
  | none => rfl
  | some ws => simp [optionalVector, hv ws rfl]

theorem length_fileContents (h : cl.WellFormed) : cl.fileContents.length = cl.fileBytes := by
  rw [fileContents_eq, length_append, length_header, body, length_append, Block.length_ofWord,
    fileBytes, Block.align]
  split_ifs with hpos
  · simp only [length_append, Block.length_ofWords, length_rangeWords, h.range_length,
      length_optionalVector h.sortidx_length, length_optionalVector h.targets_length,
      length_optionalVector h.keywords_length]
    omega
  · rw [length_nil]
    omega

/-! ## Saving and attaching -/

/-- Two optional vectors with one entry for each of `size` ranges; with no ranges, a vector
without entries is no vector. -/
def SameVector (size : BitVec 32) (v v' : Option (List (BitVec 32))) : Prop :=
  v.getD [] = v'.getD [] ∧ (0 < size.toInt → v = v')

/-- What a user sees of a query result is the same. -/
structure SameData (r cl : StoredResult) : Prop where
  registry : r.registry = cl.registry
  motherName : r.motherName = cl.motherName
  size : r.size = cl.size
  range : r.range = cl.range
  sortidx : SameVector cl.size r.sortidx cl.sortidx
  targets : SameVector cl.size r.targets cl.targets
  keywords : SameVector cl.size r.keywords cl.keywords

theorem sameVector_kept (h : cl.WellFormed)
    (hv : ∀ ws, v = some ws → ws.length = cl.size.toNat) : SameVector cl.size (cl.keptVector v) v := by
  unfold SameVector keptVector
  split_ifs with hpos
  · exact ⟨rfl, fun _ => rfl⟩
  · refine ⟨?_, fun h' => absurd h' hpos⟩
    cases v with
    | none => rfl
    | some ws =>
      have hlen := hv ws rfl
      rw [h.size_zero hpos, length_eq_zero_iff] at hlen
      rw [hlen]
      rfl

variable {ensureSyscorpus : List Byte → List Byte → Option ℕ} {m : ℕ}

theorem readHeader_fileContents (h : cl.WellFormed) :
    readHeader cl.fileContents = some (SUBCORPMAGIC + 1, cl.registry, cl.motherName,
      (header (SUBCORPMAGIC + 1) cl.registry cl.motherName).length) :=
  readHeader_header (.inr rfl) h.registry_zero h.motherName_zero cl.body

theorem at_body (cl : StoredResult) :
    cl.fileContents.At (header (SUBCORPMAGIC + 1) cl.registry cl.motherName).length cl.body := by
  have hat : cl.fileContents.At 0 (header (SUBCORPMAGIC + 1) cl.registry cl.motherName ++ cl.body) :=
    ⟨[], by rw [append_nil]; rfl⟩
  simpa using hat.skip

theorem attachSubcorpus_fileContents (h : cl.WellFormed)
    (hm : ensureSyscorpus cl.registry cl.motherName = some m) (hpos : 0 < m) (hlen : cl.fileBytes < 2 ^ 31) :
    attachSubcorpus ensureSyscorpus cl.fileContents =
      some { cl with
        type := .sub
        motherSize := m
        sortidx := cl.keptVector cl.sortidx
        targets := cl.keptVector cl.targets
        keywords := cl.keptVector cl.keywords
        loaded := true
        saved := true
        needsUpdate := false } := by
  have hfile := length_fileContents h
  have hint : (BitVec.ofNat 32 cl.fileContents.length).toInt = cl.fileContents.length :=
    Block.toInt_count (by omega)
  have hne : ¬(cl.fileContents.length : ℤ) ≤ 0 := by
    rw [hfile, fileBytes]
    omega
  have hmagic : ¬SUBCORPMAGIC + 1 = SUBCORPMAGIC := by decide
  simp only [attachSubcorpus, hint, if_neg hne, Int.toNat_natCast, take_length, bind_eq_bind,
    readHeader_fileContents h, bind_some, hm, filter_some, decide_eq_true hpos, if_true,
    if_neg hmagic, readVectors_body h (at_body cl), Option.pure_def]

theorem attachSubcorpus_cut (h : cl.WellFormed) (hlen : ¬cl.fileBytes < 2 ^ 31) :
    attachSubcorpus ensureSyscorpus cl.fileContents = none := by
  have hfile := length_fileContents h
  by_contra hne
  obtain ⟨r, hr⟩ := ne_none_iff_exists'.mp hne
  unfold attachSubcorpus at hr
  simp only [bind_eq_bind] at hr
  split_ifs at hr with hneg
  have hcut := Block.toInt_count_lt (show 2 ^ 31 ≤ cl.fileContents.length by omega)
  set len := (BitVec.ofNat 32 cl.fileContents.length).toInt.toNat
  obtain ⟨⟨magic, registry, motherName, p⟩, hheader, hr⟩ := bind_eq_some_iff.mp hr
  have hheader' := readHeader_extend hheader (cl.fileContents.drop len)
  rw [take_append_drop, readHeader_fileContents h] at hheader'
  cases hheader'
  have hmagic : ¬SUBCORPMAGIC + 1 = SUBCORPMAGIC := by decide
  simp only [if_neg hmagic, bind_eq_some_iff] at hr
  obtain ⟨_, -, v, hv, -⟩ := hr
  -- the vectors would end inside the part that was read, but they end with the file
  obtain ⟨hv', hle⟩ := readVectors_extend hv (cl.fileContents.drop len)
  rw [take_append_drop, readVectors_body h (at_body cl)] at hv'
  cases hv'
  rw [length_take] at hle
  have heq := congrArg List.length (fileContents_eq cl)
  rw [length_append] at heq
  dsimp only at hle
  omega

/-- The reader finds the integers where the writer put them, for strings of every length, and
the saved result is attached without loss exactly when an `int` can hold the file length. -/
theorem saveSubcorpus_attach_iff (ensureSyscorpus : List Byte → List Byte → Option ℕ) (cl cl' : StoredResult)
    (file : Block) (h : cl.WellFormed)
    (hm : ∃ m, ensureSyscorpus cl.registry cl.motherName = some m ∧ 0 < m)
    (hsave : cl.saveSubcorpus = .written file cl') :
    (∃ p, readHeader file = some (SUBCORPMAGIC + 1, cl.registry, cl.motherName, p) ∧ 4 ∣ p ∧
      file.drop p = cl.body) ∧
    ((∃ r, attachSubcorpus ensureSyscorpus file = some r ∧ r.SameData cl) ↔ cl.fileBytes < 2 ^ 31) := by
  obtain ⟨m, hm, hpos⟩ := hm
  have hfile : file = cl.fileContents := by
    unfold saveSubcorpus at hsave
    split_ifs at hsave
    injection hsave with hf
    exact hf.symm
  subst hfile
  constructor
  · refine ⟨_, readHeader_fileContents h, ?_, ?_⟩
    · rw [length_header]
      exact Block.align_of_dvd (by decide)
    · rw [fileContents_eq, drop_left]
  · constructor
    · intro hr
      by_contra hlen
      obtain ⟨r, hr, -⟩ := hr
      rw [attachSubcorpus_cut h hlen] at hr
      cases hr
    · intro hlen
      exact ⟨_, attachSubcorpus_fileContents h hm hpos hlen,
        { registry := rfl
          motherName := rfl
          size := rfl
          range := rfl
          sortidx := sameVector_kept h h.sortidx_length
          targets := sameVector_kept h h.targets_length
          keywords := sameVector_kept h h.keywords_length }⟩

/-- A result of `n` single tokens, in a registry directory and a corpus with short names. -/
def singleTokens (n : ℕ) : StoredResult where
  registry := [47, 114]
  motherName := [65]
  motherSize := n
  size := BitVec.ofNat 32 n
  range := (List.range n).map fun i => (BitVec.ofNat 32 i, BitVec.ofNat 32 i)
  sortidx := some ((List.range n).map (BitVec.ofNat 32))
  targets := none
  keywords := some ((List.range n).map (BitVec.ofNat 32))
  loaded := true
  saved := false
  needsUpdate := true

theorem singleTokens_wellFormed {n : ℕ} (h : n < 2 ^ 31) : (singleTokens n).WellFormed := by
  have hn : (BitVec.ofNat 32 n).toNat = n := by
    rw [BitVec.toNat_ofNat]
    omega
  exact
    { registry_zero := by simp [singleTokens]
      motherName_zero := by simp [singleTokens]
      size_nonneg := by rw [singleTokens, Block.toInt_count h]; omega
      range_length := by simp [singleTokens, hn]
      sortidx_length := by simp [singleTokens, hn]
      targets_length := by simp [singleTokens]
      keywords_length := by simp [singleTokens, hn] }

theorem singleTokens_saved (n : ℕ) :
    ∃ cl', (singleTokens n).saveSubcorpus = .written (singleTokens n).fileContents cl' := ⟨_, rfl⟩

theorem saveSubcorpus_attach_three :
    ∃ p r, readHeader (singleTokens 3).fileContents = some (SUBCORPMAGIC + 1, [47, 114], [65], p) ∧
      attachSubcorpus (fun _ _ => some 3) (singleTokens 3).fileContents = some r ∧ r.SameData (singleTokens 3) := by
  obtain ⟨cl', hsave⟩ := singleTokens_saved 3
  obtain ⟨⟨p, hp, -⟩, hiff⟩ := saveSubcorpus_attach_iff (fun _ _ => some 3) (singleTokens 3) cl' _
    (singleTokens_wellFormed (by decide)) ⟨3, rfl, by decide⟩ hsave
  obtain ⟨r, hr, hsame⟩ := hiff.mpr (by decide)
  exact ⟨p, r, hp, hr, hsame⟩

/-- Two gibibytes of ranges: the file is written, but its length is not positive as an `int`. -/
theorem saveSubcorpus_large_not_attached :
    (singleTokens (2 ^ 28)).WellFormed ∧
      (∃ cl', (singleTokens (2 ^ 28)).saveSubcorpus = .written (singleTokens (2 ^ 28)).fileContents cl') ∧
      attachSubcorpus (fun _ _ => some (2 ^ 28)) (singleTokens (2 ^ 28)).fileContents = none := by
  have hw : (singleTokens (2 ^ 28)).WellFormed := singleTokens_wellFormed (by decide)
  refine ⟨hw, singleTokens_saved _, attachSubcorpus_cut hw ?_⟩
  have hsize : (singleTokens (2 ^ 28)).size = BitVec.ofNat 32 (2 ^ 28) := rfl
  have hpos : 0 < (singleTokens (2 ^ 28)).size.toInt := by rw [hsize]; decide
  have hnat : (singleTokens (2 ^ 28)).size.toNat = 2 ^ 28 := by rw [hsize]; decide
  rw [fileBytes, if_pos hpos, hnat]
  omega

end StoredResult

end CWB
