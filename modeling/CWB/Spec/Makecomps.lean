import Mathlib.Data.List.Basic

/-! The token stream of a positional attribute and the components that `cl/makecomps.c`
derives from it: the frequency list, the reversed corpus and its index. All integers
are stored in network byte order and converted back on every access, which leaves
no trace here. -/

namespace CWB

open List

/-- A token stream, with at least one token, in which every lexicon entry is used. -/
structure TokenStream where
  ids : List ℕ
  lexsize : ℕ
  lexsize_pos : 0 < lexsize
  id_lt : ∀ id ∈ ids, id < lexsize
  occurs : ∀ id < lexsize, id ∈ ids

/-- The corpus positions of `id`, in ascending order. -/
def positions (ids : List ℕ) (id : ℕ) : List ℕ :=
  (range ids.length).filter fun cpos => ids[cpos]? = some id

def creatFreqs (ids : List ℕ) (lexsize : ℕ) : List ℕ :=
  ids.foldl (fun freqs id => if id < lexsize then freqs.modify id (· + 1) else freqs)
    (replicate lexsize 0)

def creatRevCorpusIdx (freqs : List ℕ) : List ℕ :=
  (freqs.foldl (fun (p : List ℕ × ℕ) i => (p.1 ++ [p.2], p.2 + i)) ([], 0)).1

/-- How many lexicon IDs fit into the buffer in one pass: from `secundus` on, as long
as there is room, `ptab` is set to the next free place. The result is the first ID
that is left to the next pass. -/
def fitIds (freqs : List ℕ) (bufsize : ℕ) : ℕ → ℕ → ℕ → (ℕ → ℕ) → ℕ × ℕ × (ℕ → ℕ)
  | 0, secundus, bufUsed, ptab => (secundus, bufUsed, ptab)
  | fuel + 1, secundus, bufUsed, ptab =>
    match freqs[secundus]? with
    | none => (secundus, bufUsed, ptab)
    | some f =>
      if bufUsed + f > bufsize then (secundus, bufUsed, ptab)
      else fitIds freqs bufsize fuel (secundus + 1) (bufUsed + f) (Function.update ptab secundus bufUsed)

/-- The file, the buffer and the pointers into it during one pass over the corpus. -/
structure RevPass where
  file : List ℕ
  buffer : ℕ → ℕ
  ptab : ℕ → ℕ

/-- One token of a pass over the IDs `primus .. limit - 1`: occurrences of `primus`
go straight to the file, those of the others to the buffer. -/
def revToken (primus limit : ℕ) (s : RevPass) (token : ℕ × ℕ) : RevPass :=
  if token.1 = primus then { s with file := s.file ++ [token.2] }
  else if primus < token.1 ∧ token.1 < limit then
    { s with
      buffer := Function.update s.buffer (s.ptab token.1) token.2
      ptab := Function.update s.ptab token.1 (s.ptab token.1 + 1) }
  else s

/-- The pointer check after a pass. -/
def checkPtab (freqs : List ℕ) (ptab : ℕ → ℕ) (primus limit : ℕ) : Bool :=
  ((range' (primus + 1) (limit - (primus + 1))).foldl
    (fun (p : ℕ × Bool) id => (p.1 + freqs.getD id 0, p.2 && p.1 + freqs.getD id 0 == ptab id)) (0, true)).2

/-- One pass: the file behind it and the first ID of the next pass, unless the
pointer check aborts the program. -/
def revPass (ids freqs : List ℕ) (bufsize primus : ℕ) (file : List ℕ) : Option (List ℕ × ℕ) :=
  let (limit, bufUsed, ptab) := fitIds freqs bufsize freqs.length (primus + 1) 0 (fun _ => 0)
  let s := ids.zipIdx.foldl (revToken primus limit) { file := file, buffer := fun _ => 0, ptab := ptab }
  if checkPtab freqs s.ptab primus limit then
    some (s.file ++ (range bufUsed).map s.buffer, limit)
  else none

def revPasses (ids freqs : List ℕ) (bufsize : ℕ) : ℕ → ℕ → List ℕ → Option (List ℕ)
  | 0, _, file => some file
  | fuel + 1, primus, file =>
    if primus < freqs.length then do
      let (file, primus) ← revPass ids freqs bufsize primus file
      revPasses ids freqs bufsize fuel primus file
    else some file

/-- `cl_memory_limit` in megabytes, 0 for none: the size of the buffer in integers. -/
def revBufsize (memoryLimit datasize : ℕ) : ℕ :=
  let bufsize := if memoryLimit > 0 then memoryLimit * (256 * 1024) else datasize
  if datasize < bufsize then datasize else bufsize

/-- `creat_rev_corpus`, with the number of passes bounded by the size of the lexicon. -/
def creatRevCorpus (memoryLimit : ℕ) (ids freqs : List ℕ) : Option (List ℕ) := do
  let file ← revPasses ids freqs (revBufsize memoryLimit ids.length) freqs.length 0 []
  if file.length = ids.length then some file else none

end CWB
