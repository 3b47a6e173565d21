import CWB.Library.RegionSearch

/-! The `.alx` file that `utils/cwb-align-encode.c` writes, and the functions of
`cl/cdaccess.c` that look up alignment beads in it. The integers of the file are read back as
they were written (the byte order is changed twice). -/

namespace CWB

/-- One line of the input: the regions `f1 .. l1` and `f2 .. l2`. -/
structure AlignLine where
  f1 : ℤ
  l1 : ℤ
  f2 : ℤ
  l2 : ℤ
deriving Repr, DecidableEq

structure AlignEncoder where
  mark : ℤ := -1
  alx : List ℤ := []

/-- One round of the encoding loop; `none` if the program stops with an error. -/
def encodeAlignLine (reverse : Bool) (st : AlignEncoder) (line : AlignLine) : Option AlignEncoder :=
  if line.l1 < line.f1 then some st
  else if line.l2 < line.f2 then some st
  else if (if reverse then line.f2 else line.f1) ≤ st.mark then none
  else some
    { mark := if reverse then line.l2 else line.l1
      alx := st.alx ++
        if reverse then [line.f2, line.l2, line.f1, line.l1] else [line.f1, line.l1, line.f2, line.l2] }

/-- The file, for the lines after the header. -/
def alignEncode (reverse : Bool) (lines : List AlignLine) : Option (List ℤ) :=
  (lines.foldlM (encodeAlignLine reverse) {}).map AlignEncoder.alx

/-! ## Look-up -/

def CDA_EALIGN : ℤ := -9

/-- `ntohl(data[i])` -/
def alignData (data : List ℤ) (i : ℤ) : ℤ := data.getD i.toNat 0

/-- `size` of the loaded component, an `int`. -/
def alignSize (data : List ℤ) : ℤ := (data.length : ℤ).bmod (2 ^ 32)

/-- The component exists, so `cl_has_extended_alignment` holds. -/
def clMaxAlg (data : List ℤ) : ℤ := (alignSize data).tdiv 4

/-- `get_extended_alignment`; the search is given up after `rounds` rounds. -/
def getExtendedAlignment (rounds : ℕ) (data : List ℤ) (size position : ℤ) : ℤ :=
  let max := size.tdiv 4
  match RegionSearch.search (fun mid => alignData data (mid * 4)) (fun mid => alignData data (mid * 4 + 1)) position
    rounds 0 (max - 1) with
  | none => -1
  | some none => CDA_EALIGN
  | some (some mid) => mid

def clCpos2alg (data : List ℤ) (cpos : ℤ) : ℤ := getExtendedAlignment 100000 data (alignSize data) cpos

/-- `cl_alg2cpos`: start and end of the source and of the target region, `none` if it fails. -/
def clAlg2cpos (data : List ℤ) (alg : ℤ) : Option (ℤ × ℤ × ℤ × ℤ) :=
  let size := (alignSize data).tdiv 4
  if alg < 0 ∨ size ≤ alg then none
  else some (alignData data (alg * 4), alignData data (alg * 4 + 1), alignData data (alg * 4 + 2), alignData data (alg * 4 + 3))

end CWB
