import CWB.Library.CountVector
import CWB.Library.SliceTable
import CWB.Library.Windows
import CWB.Spec.RangeFile
import CWB.Spec.RegionTable

/-! The feature maps of the sentence aligner: `create_feature_maps` and `feature_match` in `utils/feature_maps.c`.
Numbers are not limited to 32 bits, but for those that are read from the configuration. -/

namespace CWB

open List

/-- A positional attribute by its access functions; the IDs of its lexicon are those below `maxId`. -/
structure WordAttribute where
  maxId : ℕ
  id2str : Fin maxId → List UInt8
  id2freq : Fin maxId → ℤ
  id2strlen : Fin maxId → ℤ
  str2id : List UInt8 → Option (Fin maxId)
  cpos2id : ℤ → Option (Fin maxId)

/-- What `create_feature_maps` and `feature_match` are called with, and the library functions that they use. -/
structure AlignCorpora where
  wAttr1 : WordAttribute
  wAttr2 : WordAttribute
  sAttr1 : List (ℤ × ℤ)
  sAttr2 : List (ℤ × ℤ)
  charset : CorpusCharset
  glib : GLib
  /-- `cl_string_canonical` with `IGNORE_CASE` and `IGNORE_DIAC` -/
  canonical : List UInt8 → List UInt8
  /-- a file by its name -/
  fopen : List UInt8 → Option (List UInt8)
  /-- the buffer `word2` before a word list is read -/
  word2 : List UInt8
  Float : Type
  strtof : List UInt8 → Option (Float × List UInt8)
  /-- `f1/(0.0+f1+f2)>=threshold && f2/(0.0+f1+f2)>=threshold` -/
  meetsThreshold : ℤ → ℤ → Float → Bool

/-! ## The configuration -/

/-- `init_char_map` -/
def charMap (c : UInt8) : ℕ :=
  let map := if 97 ≤ c ∧ c ≤ 122 then c.toNat else if 65 ≤ c ∧ c ≤ 90 then c.toNat + 0x20 else 0
  if c = 0 then 0 else if map > 0 then map - 0x5f else 1

def charMapRange : ℕ :=
  (range' 1 255).foldl (fun range i => if charMap (UInt8.ofNat i) ≥ range then charMap (UInt8.ofNat i) + 1 else range) 0

/-- The line up to its line break or comment. -/
def stripComment (config : List UInt8) : List UInt8 := config.takeWhile fun c => c ≠ 10 && c ≠ 35

/-- The switch over the commands, by the first word of the line. -/
inductive ConfigCommand where
  | empty | sharedWords | ngrams | wordList | charCount | unknown | noCommand
deriving DecidableEq

def configCommand (line : List UInt8) : ConfigCommand :=
  match (Scanf.scanWord none (Scanf.skipSpace line)).1 with
  | [] => .empty
  | 45 :: 83 :: _ => .sharedWords
  | 45 :: 49 :: _ | 45 :: 50 :: _ | 45 :: 51 :: _ | 45 :: 52 :: _ => .ngrams
  | 45 :: 87 :: _ => .wordList
  | 45 :: 67 :: _ => .charCount
  | 45 :: _ => .unknown
  | _ => .noCommand

namespace AlignCorpora

variable (env : AlignCorpora)

open Scanf Directive

/-- `%2s:%d:%f %s`: weight and threshold, if there are three assignments -/
def scanSharedWords (line : List UInt8) : Option (ℤ × env.Float) :=
  match sscanf env.strtof line [string (some 2), literal 58, int, literal 58, float, space, string none] with
  | (3, [_, .int weight, .float threshold]) => some (weight, threshold)
  | _ => none

/-- `%1s%d:%d %s`: length and weight -/
def scanNgrams (line : List UInt8) : Option (ℤ × ℤ) :=
  match sscanf env.strtof line [string (some 1), int, literal 58, int, space, string none] with
  | (3, [_, .int n, .int weight]) => some (n, weight)
  | _ => none

/-- `%2s:%d:%s %s`: weight and file name -/
def scanWordList (line : List UInt8) : Option (ℤ × List UInt8) :=
  match sscanf env.strtof line [string (some 2), literal 58, int, literal 58, string none, space, string none] with
  | (3, [_, .int weight, .string filename]) => some (weight, filename)
  | _ => none

/-- `%2s:%d %s`: weight -/
def scanCharCount (line : List UInt8) : Option ℤ :=
  match sscanf env.strtof line [string (some 2), literal 58, int, space, string none] with
  | (2, [_, .int weight]) => some weight
  | _ => none

/-- The word of the target lexicon that is shared with a word of the source lexicon. -/
def sharedWord (threshold : env.Float) (i1 : Fin env.wAttr1.maxId) : Option (Fin env.wAttr2.maxId) :=
  match env.wAttr2.str2id (env.wAttr1.id2str i1) with
  | none => none
  | some i2 => if env.meetsThreshold (env.wAttr1.id2freq i1) (env.wAttr2.id2freq i2) threshold then some i2 else none

/-- What the calls of `fscanf(wordlist, "%s %s", word1, word2)` assign, with their values. -/
def readWordList : List (List UInt8) → List UInt8 → List (ℕ × List UInt8 × List UInt8)
  | [], _ => []
  | [word1], word2 => [(1, word1, word2)]
  | word1 :: word2 :: rest, _ => (2, word1, word2) :: readWordList rest word2

/-- Without the byte order mark on line `nl` if that is the first one. -/
def skipUtf8Prefix (nl : ℕ) (word1 : List UInt8) : List UInt8 :=
  if nl = 0 ∧ env.charset = .utf8 ∧ word1.length > 3 ∧ word1.take 3 = [0xEF, 0xBB, 0xBF] then word1.drop 3 else word1

/-- The lines of a word list: the numbers of words and the words themselves. -/
def wordListLines (file : List UInt8) : List (ℕ × List UInt8 × List UInt8) :=
  (readWordList (words file) env.word2).mapIdx fun nl (nw, word1, word2) => (nw, env.skipUtf8Prefix nl word1, word2)

end AlignCorpora

/-! ## First pass -/

structure FeatureCounts where
  nFeatures : ℕ
  fcount1 : ℕ → ℕ
  fcount2 : ℕ → ℕ

namespace FeatureCounts

def addTo (fcount : ℕ → ℕ) (i : ℕ) (n : ℕ) : ℕ → ℕ := Function.update fcount i (fcount i + n)

/-- A feature of the words `i1` and `i2`. -/
def pair (st : FeatureCounts) (i1 i2 : ℕ) : FeatureCounts where
  nFeatures := st.nFeatures + 1
  fcount1 := addTo st.fcount1 i1 1
  fcount2 := addTo st.fcount2 i2 1

end FeatureCounts

namespace AlignCorpora

variable (env : AlignCorpora)

/-- The number of features before any line is read, with the character counts of all words. -/
def initialCounts : FeatureCounts where
  nFeatures := 1
  fcount1 i := if i < env.wAttr1.maxId then 1 else 0
  fcount2 i := if i < env.wAttr2.maxId then 1 else 0

def countNgrams (n : ℕ) (att : WordAttribute) (fcount : ℕ → ℕ) : ℕ → ℕ :=
  (finRange att.maxId).foldl (fun fcount i =>
    let l := (env.canonical (att.id2str i)).length
    FeatureCounts.addTo fcount i (if l ≥ n then l - n + 1 else 0)) fcount

def countWordListLine (st : FeatureCounts) : ℕ × List UInt8 × List UInt8 → Option FeatureCounts
  | (nw, word1, word2) =>
    if !(clStringValidateEncoding env.glib word1 env.charset && clStringValidateEncoding env.glib word2 env.charset) then none
    else if nw ≠ 2 then some st
    else match env.wAttr1.str2id word1, env.wAttr2.str2id word2 with
      | some i1, some i2 => some (st.pair i1 i2)
      | _, _ => some st

/-- A line of the configuration in the first pass, `none` where the program stops. -/
def firstPass (st : FeatureCounts) (config : List UInt8) : Option FeatureCounts :=
  let line := stripComment config
  match configCommand line with
  | .empty => some st
  | .sharedWords =>
    match env.scanSharedWords line with
    | none => none
    | some (_, threshold) =>
      some ((finRange env.wAttr1.maxId).foldl (fun st i1 =>
        match env.sharedWord threshold i1 with
        | some i2 => st.pair i1 i2
        | none => st) st)
  | .ngrams =>
    match env.scanNgrams line with
    | none => none
    | some (n, _) =>
      if n ≤ 0 ∨ n > 4 then none
      else
        some {
          nFeatures := st.nFeatures + charMapRange ^ n.toNat
          fcount1 := env.countNgrams n.toNat env.wAttr1 st.fcount1
          fcount2 := env.countNgrams n.toNat env.wAttr2 st.fcount2 }
  | .wordList =>
    match env.scanWordList line with
    | none => none
    | some (_, filename) =>
      match env.fopen filename with
      | none => none
      | some wordlist => (env.wordListLines wordlist).foldlM env.countWordListLine st
  | .charCount =>
    match env.scanCharCount line with
    | none => none
    | some _ => some st
  | .unknown => none
  | .noCommand => none

end AlignCorpora

/-! ## Second pass -/

/-- `feature_maps_t`: the maps from words to features with the vectors `fs1` and `fs2` that they point into. -/
structure FeatureMaps where
  nFeatures : ℕ
  w2f1 : SliceTable.Table ℤ
  w2f2 : SliceTable.Table ℤ
  fweight : ℤ → ℤ
  vstack : List (ℤ → ℤ)

/-- The maps with `current_feature`. -/
structure FeatureFill where
  r : FeatureMaps
  currentFeature : ℤ

namespace FeatureMaps

/-- `r->fweight[f] = weight`, `none` outside of the vector -/
def setWeight (weight : ℤ) (r : FeatureMaps) (f : ℤ) : Option FeatureMaps :=
  if 0 ≤ f ∧ f < r.nFeatures then some { r with fweight := Function.update r.fweight f weight } else none

end FeatureMaps

namespace FeatureFill

/-- `current_feature` becomes a feature of the words `i1` and `i2`. -/
def pair (weight : ℤ) (st : FeatureFill) (i1 i2 : ℕ) : Option FeatureFill := do
  let w2f2 ← st.r.w2f2.push i2 st.currentFeature
  let w2f1 ← st.r.w2f1.push i1 st.currentFeature
  let r ← FeatureMaps.setWeight weight { st.r with w2f1, w2f2 } st.currentFeature
  pure { r, currentFeature := st.currentFeature + 1 }

end FeatureFill

namespace AlignCorpora

variable (env : AlignCorpora)

/-- A character of word `i`: the features are set as soon as `n` characters have been read. -/
def ngramStep (n f : ℕ) (currentFeature : ℤ) (i : ℕ) (st : ℕ × ℕ × SliceTable.Table ℤ) (c : UInt8) :
    Option (ℕ × ℕ × SliceTable.Table ℤ) :=
  let ng := (st.1 * charMapRange + charMap c) % f
  let l := st.2.1 + 1
  if l ≥ n then (st.2.2.push i (currentFeature + ng)).map fun w2f => (ng, l, w2f) else some (ng, l, st.2.2)

def setNgrams (n f : ℕ) (currentFeature : ℤ) (att : WordAttribute) (w2f : SliceTable.Table ℤ) : Option (SliceTable.Table ℤ) :=
  (finRange att.maxId).foldlM (fun w2f i =>
    ((env.canonical (att.id2str i)).foldlM (ngramStep n f currentFeature i) (0, 0, w2f)).map fun st => st.2.2) w2f

def fillWordListLine (weight : ℤ) (st : FeatureFill) : ℕ × List UInt8 × List UInt8 → Option FeatureFill
  | (nw, word1, word2) =>
    if nw ≠ 2 then some st
    else match env.wAttr1.str2id word1, env.wAttr2.str2id word2 with
      | some i1, some i2 => st.pair weight i1 i2
      | _, _ => some st

/-- A line of the configuration in the second pass, `none` where the program stops or writes outside of its vectors. -/
def secondPass (st : FeatureFill) (config : List UInt8) : Option FeatureFill :=
  let line := stripComment config
  match configCommand line with
  | .sharedWords =>
    match env.scanSharedWords line with
    | none => some st
    | some (weight, threshold) =>
      (finRange env.wAttr1.maxId).foldlM (fun st i1 =>
        match env.sharedWord threshold i1 with
        | some i2 => st.pair weight i1 i2
        | none => some st) st
  | .ngrams =>
    match env.scanNgrams line with
    | none => some st
    | some (n, weight) =>
      if n ≥ 1 ∧ n ≤ 4 then do
        let f := charMapRange ^ n.toNat
        let r ← (List.range f).foldlM (fun r k => FeatureMaps.setWeight weight r (st.currentFeature + (k : ℕ))) st.r
        let w2f1 ← env.setNgrams n.toNat f st.currentFeature env.wAttr1 r.w2f1
        let w2f2 ← env.setNgrams n.toNat f st.currentFeature env.wAttr2 r.w2f2
        pure { r := { r with w2f1, w2f2 }, currentFeature := st.currentFeature + f }
      else some st
  | .wordList =>
    match env.scanWordList line with
    | none => some st
    | some (weight, filename) =>
      match env.fopen filename with
      | none => none
      | some wordlist => (env.wordListLines wordlist).foldlM (env.fillWordListLine weight) st
  | .charCount =>
    match env.scanCharCount line with
    | none => some st
    | some weight => some { st with r := { st.r with fweight := Function.update st.r.fweight 0 weight } }
  | .empty | .unknown | .noCommand => some st

/-- `*(--w2f[i]) = cl_id2strlen(att, i)` for all words -/
def setCharCounts (att : WordAttribute) (w2f : SliceTable.Table ℤ) : Option (SliceTable.Table ℤ) :=
  (finRange att.maxId).foldlM (fun w2f (i : Fin att.maxId) => w2f.push i (att.id2strlen i)) w2f

/-- The check of the pointers against the counts. -/
def checkPointers (nw : ℕ) (fcount : ℕ → ℕ) (w2f : SliceTable.Table ℤ) : Bool :=
  (range' 1 (nw - 1)).all fun i => (w2f.ptr (i + 1) : ℤ) - w2f.ptr i = (fcount i : ℤ) - fcount (i - 1)

/-- `create_feature_maps` -/
def createFeatureMaps (config : List (List UInt8)) : Option FeatureMaps := do
  let nw1 := env.wAttr1.maxId
  let nw2 := env.wAttr2.maxId
  if nw1 = 0 ∨ nw2 = 0 then none
  let counts ← config.foldlM env.firstPass env.initialCounts
  let w2f1 := SliceTable.initial nw1 counts.fcount1 fun _ => 0
  let w2f2 := SliceTable.initial nw2 counts.fcount2 fun _ => 0
  let r : FeatureMaps := { nFeatures := counts.nFeatures, w2f1, w2f2, fweight := fun _ => 0, vstack := [] }
  let st ← config.foldlM env.secondPass { r, currentFeature := 1 }
  let w2f1 ← setCharCounts env.wAttr1 st.r.w2f1
  let w2f2 ← setCharCounts env.wAttr2 st.r.w2f2
  if checkPointers nw1 (SliceTable.cumulate nw1 counts.fcount1) w2f1 &&
      checkPointers nw2 (SliceTable.cumulate nw2 counts.fcount2) w2f2 then
    some { st.r with w2f1, w2f2 }
  else none

end AlignCorpora

/-! ## Comparing regions -/

/-- The IDs of the tokens in the regions `f` to `l`. -/
def WordAttribute.regionIds (att : WordAttribute) (s : List (ℤ × ℤ)) (f l : ℤ) : List (Fin att.maxId) :=
  (List.range (l - f + 1).toNat).flatMap fun j =>
    match clStruc2cpos s (f + (j : ℕ)) with
    | none => []
    | some (start, stop) => (List.range (stop - start + 1).toNat).filterMap fun i => att.cpos2id (start + (i : ℕ))

/-- The first entry of a word, its character count. -/
def charCount (w2f : SliceTable.Table ℤ) (id : ℕ) : ℤ := w2f.data (w2f.ptr id)

/-- The entries behind the first one. -/
def wordFeatures (w2f : SliceTable.Table ℤ) (id : ℕ) : List ℤ :=
  (range' (w2f.ptr id + 1) (w2f.ptr (id + 1) - (w2f.ptr id + 1))).map w2f.data

namespace FeatureMaps

def getFvector (fms : FeatureMaps) : (ℤ → ℤ) × FeatureMaps :=
  match fms.vstack with
  | [] => (fun _ => 0, fms)
  | fcount :: next => (fcount, { fms with vstack := next })

def releaseFvector (fvector : ℤ → ℤ) (fms : FeatureMaps) : FeatureMaps := { fms with vstack := fvector :: fms.vstack }

/-- An access to `fcount[f]`, `none` outside of the vector -/
def atFeature {σ : Type} (fms : FeatureMaps) (step : σ → ℤ → σ) (st : σ) (f : ℤ) : Option σ :=
  if 0 ≤ f ∧ f < fms.nFeatures then some (step st f) else none

end FeatureMaps

namespace AlignCorpora

variable (env : AlignCorpora)

/-- `feature_match` -/
def featureMatch (fms : FeatureMaps) (f1 l1 f2 l2 : ℤ) : Option (ℤ × FeatureMaps) := do
  let ids1 := env.wAttr1.regionIds env.sAttr1 f1 l1
  let ids2 := env.wAttr2.regionIds env.sAttr2 f2 l2
  let (fcount, fms) := fms.getFvector
  let (fcount, cc1) ← ids1.foldlM (fun (st : (ℤ → ℤ) × ℤ) (id : Fin env.wAttr1.maxId) => do
    let fcount ← (wordFeatures fms.w2f1 id).foldlM (fms.atFeature CountVector.bump) st.1
    pure (fcount, st.2 + charCount fms.w2f1 id)) (fcount, 0)
  let ((fcount, sim), cc2) ← ids2.foldlM (fun (st : ((ℤ → ℤ) × ℤ) × ℤ) (id : Fin env.wAttr2.maxId) => do
    let fcount ← (wordFeatures fms.w2f2 id).foldlM (fms.atFeature (CountVector.takeOne fms.fweight)) st.1
    pure (fcount, st.2 + charCount fms.w2f2 id)) ((fcount, 0), 0)
  let sim := sim + fms.fweight 0 * (if cc1 ≤ cc2 then cc1 else cc2)
  let fcount ← ids1.foldlM (fun fcount (id : Fin env.wAttr1.maxId) =>
    (wordFeatures fms.w2f1 id).foldlM (fms.atFeature CountVector.clear) fcount) fcount
  pure (sim, fms.releaseFvector fcount)

/-- Calls of `feature_match`, one after the other. -/
def featureMatches (fms : FeatureMaps) : List (ℤ × ℤ × ℤ × ℤ) → Option (List ℤ × FeatureMaps)
  | [] => some ([], fms)
  | (f1, l1, f2, l2) :: calls => do
    let (sim, fms) ← env.featureMatch fms f1 l1 f2 l2
    let (sims, fms) ← featureMatches fms calls
    pure (sim :: sims, fms)

end AlignCorpora

/-! ## What the configuration says -/

/-- A line of the configuration: features of pairs of words, features of n-grams, or the weight of the character count. -/
inductive FeatureLine (n1 n2 : ℕ) where
  | nothing
  | pairs (weight : ℤ) (words : List (Fin n1 × Fin n2))
  | ngrams (n : ℕ) (weight : ℤ)
  | charCount (weight : ℤ)

namespace FeatureLine

variable {n1 n2 : ℕ}

/-- The number of features. -/
def size : FeatureLine n1 n2 → ℕ
  | .pairs _ words => words.length
  | .ngrams n _ => charMapRange ^ n
  | .nothing | .charCount _ => 0

def weight : FeatureLine n1 n2 → ℤ
  | .pairs weight _ | .ngrams _ weight | .charCount weight => weight
  | .nothing => 0

/-- The weight of feature `f`, where the lines have the features from `base` on. -/
def featureWeight (base : ℤ) : List (FeatureLine n1 n2) → ℤ → ℤ
  | [], _ => 0
  | line :: lines, f => if base ≤ f ∧ f < base + line.size then line.weight else featureWeight (base + line.size) lines f

def newCharCount (weight : ℤ) : FeatureLine n1 n2 → ℤ
  | .charCount weight' => weight'
  | .nothing | .pairs _ _ | .ngrams _ _ => weight

/-- The weight of the character count is the last one that is given. -/
def charCountWeight (lines : List (FeatureLine n1 n2)) : ℤ := lines.foldl newCharCount 0

end FeatureLine

/-- An n-gram as a number with the digits of `charMap`. -/
def gramCode (s : List UInt8) : ℕ := Windows.code charMap charMapRange s

/-- The features of word `i` among those of the pairs, which count up from `base`. -/
def pairFeatures {P : Type} (word : P → ℕ) (i : ℕ) : ℤ → List P → List ℤ
  | _, [] => []
  | base, p :: pairs => (if word p = i then [base] else []) ++ pairFeatures word i (base + 1) pairs

namespace AlignCorpora

variable (env : AlignCorpora)

abbrev Line := FeatureLine env.wAttr1.maxId env.wAttr2.maxId

/-- One side of the pairs: the attribute, and the word of a pair that belongs to it. -/
structure Side where
  att : WordAttribute
  word : Fin env.wAttr1.maxId × Fin env.wAttr2.maxId → Fin att.maxId

def source : env.Side := { att := env.wAttr1, word := fun p => p.1 }

def target : env.Side := { att := env.wAttr2, word := fun p => p.2 }

variable {env} in
/-- The features of a word on a line with the features from `base` on. -/
def Side.lineFeatures (side : env.Side) (base : ℤ) (line : env.Line) (i : Fin side.att.maxId) : List ℤ :=
  match line with
  | .pairs _ words => pairFeatures (fun p => side.word p) i base words
  | .ngrams n _ => (Windows.windows n (env.canonical (side.att.id2str i))).map fun g => base + gramCode g
  | .nothing | .charCount _ => []

variable {env} in
def Side.features (side : env.Side) (i : Fin side.att.maxId) : ℤ → List env.Line → List ℤ
  | _, [] => []
  | base, line :: lines => side.lineFeatures base line i ++ side.features i (base + line.size) lines

/-- The pairs of shared words. -/
def sharedPairs (threshold : env.Float) : List (Fin env.wAttr1.maxId × Fin env.wAttr2.maxId) :=
  (finRange env.wAttr1.maxId).filterMap fun i1 => (env.sharedWord threshold i1).map fun i2 => (i1, i2)

/-- The pair of a line of a word list, if both words occur in their corpora. -/
def wordListPair : ℕ × List UInt8 × List UInt8 → Option (Fin env.wAttr1.maxId × Fin env.wAttr2.maxId)
  | (nw, word1, word2) =>
    if nw ≠ 2 then none
    else match env.wAttr1.str2id word1, env.wAttr2.str2id word2 with
      | some i1, some i2 => some (i1, i2)
      | _, _ => none

def validLine (line : ℕ × List UInt8 × List UInt8) : Bool :=
  clStringValidateEncoding env.glib line.2.1 env.charset && clStringValidateEncoding env.glib line.2.2 env.charset

/-- What a line says, `none` for an error. -/
def readLine (config : List UInt8) : Option env.Line :=
  let line := stripComment config
  match configCommand line with
  | .empty => some .nothing
  | .sharedWords => (env.scanSharedWords line).map fun (weight, threshold) => .pairs weight (env.sharedPairs threshold)
  | .ngrams => (env.scanNgrams line).bind fun (n, weight) => if n ≤ 0 ∨ n > 4 then none else some (.ngrams n.toNat weight)
  | .wordList =>
    (env.scanWordList line).bind fun (weight, filename) =>
      (env.fopen filename).bind fun wordlist =>
        let lines := env.wordListLines wordlist
        if lines.all env.validLine then some (.pairs weight (lines.filterMap env.wordListPair)) else none
  | .charCount => (env.scanCharCount line).map .charCount
  | .unknown | .noCommand => none

/-- What the configuration says, `none` for an error or an empty lexicon. -/
def readConfig (config : List (List UInt8)) : Option (List env.Line) :=
  if env.wAttr1.maxId = 0 ∨ env.wAttr2.maxId = 0 then none else config.mapM env.readLine

/-- The number of all features, with the character count. -/
def featureCount (lines : List env.Line) : ℕ := 1 + (lines.map FeatureLine.size).sum

/-- The similarity of two lists of words: all features that they share, as often as they share them, and the smaller
character count. -/
noncomputable def similarity (lines : List env.Line) (ids1 : List (Fin env.source.att.maxId)) (ids2 : List (Fin env.target.att.maxId)) : ℤ :=
  ∑ f ∈ Finset.Ico (1 : ℤ) (env.featureCount lines),
      FeatureLine.featureWeight 1 lines f *
        min ((ids1.flatMap fun id => env.source.features id 1 lines).count f : ℤ)
          ((ids2.flatMap fun id => env.target.features id 1 lines).count f) +
    FeatureLine.charCountWeight lines *
      min (ids1.map env.source.att.id2strlen).sum (ids2.map env.target.att.id2strlen).sum

/-- Each word points to its character count and its features, and each feature has its weight. -/
structure MapsHold (lines : List env.Line) (fms : FeatureMaps) : Prop where
  nFeatures : fms.nFeatures = env.featureCount lines
  slices1 : ∀ id : Fin env.source.att.maxId, fms.w2f1.slice id = env.source.att.id2strlen id :: (env.source.features id 1 lines).reverse
  slices2 : ∀ id : Fin env.target.att.maxId, fms.w2f2.slice id = env.target.att.id2strlen id :: (env.target.features id 1 lines).reverse
  fweight : ∀ f, 0 < f → fms.fweight f = FeatureLine.featureWeight 1 lines f
  fweight_zero : fms.fweight 0 = FeatureLine.charCountWeight lines

end AlignCorpora

end CWB
