import Mathlib.Data.Nat.Prime.Infinite
import CWB.Library.HashTables

/-! The hash tables of `cl/lexhash.c` and `cl/ngram-hash.c`. A bucket is the list of its
entries. The `double` arithmetic that decides when a table grows, and to which size, is
a parameter: any function may stand for it. A failed assertion is `none`. -/

namespace CWB

open ChainedTable

def isPrime (n : ℕ) : Prop := ∀ i < n, 2 ≤ i → i * i ≤ n → n % i ≠ 0

instance (n : ℕ) : Decidable (isPrime n) := inferInstanceAs (Decidable (∀ i < n, _))

theorem exists_isPrime (n : ℕ) : ∃ m, n ≤ m ∧ isPrime m := by
  obtain ⟨m, hle, hm⟩ := Nat.exists_infinite_primes n
  refine ⟨m, hle, ?_⟩
  intro i hi h2 _ hmod
  rcases (Nat.dvd_prime hm).mp (Nat.dvd_of_mod_eq_zero hmod) with h | h <;> omega

/-- `find_prime`: the smallest number from `n` on that has no divisor up to its root. -/
def findPrime (n : ℕ) : ℕ := Nat.find (exists_isPrime n)

def DEFAULT_NR_OF_BUCKETS : ℕ := 250000

def MAX_BUCKETS : ℕ := 1000000007

/-- The number of buckets that `cl_new_lexhash` and `cl_new_ngram_hash` allocate. -/
def nrOfBuckets (buckets : ℤ) : ℕ :=
  findPrime (if buckets ≤ 0 then DEFAULT_NR_OF_BUCKETS else buckets.toNat)

/-- The fill rate computations: `fill_rate > fillrate_limit`, the same test as it is made
before the call in the `add` functions, and the target size, each from the number of
entries and buckets. -/
structure FillRate where
  exceeds : ℕ → ℕ → Bool
  exceedsOnAdd : ℕ → ℕ → Bool
  targetSize : ℕ → ℕ

/-- The body of the two `check_grow` functions: the new table and `auto_grow`. -/
def checkGrow {κ ε : Type} (key : ε → κ) (hash : κ → ℕ) (fill : FillRate) (autoGrow : Bool) (entries : ℕ)
    (table : List (List ε)) : Option (List (List ε) × Bool) :=
  if autoGrow ∧ fill.exceeds entries table.length then
    let targetSize := fill.targetSize entries
    -- too large a target switches growing off, and is cut down if that still doubles the table
    if targetSize > MAX_BUCKETS ∧ 2 * table.length > targetSize then some (table, false)
    else
      let newBuckets := if targetSize > MAX_BUCKETS then MAX_BUCKETS else targetSize
      let temp := rehash key hash (nrOfBuckets newBuckets) table.flatten
      if temp.flatten.length = entries then some (temp, !(targetSize > MAX_BUCKETS)) else none
  else some (table, autoGrow)

/-- `hash_string`, on 32 bits. -/
def hashString (s : List UInt8) : ℕ :=
  (s.foldl (fun (result : UInt32) c => (result * (33 : UInt32)) ^^^ (result >>> (27 : UInt32)) ^^^ c.toUInt32) 0).toNat

structure LexhashEntry where
  key : List UInt8
  freq : ℕ
  id : ℕ
deriving Repr, DecidableEq

/-- `iterPoint` is the rest of a bucket from the iterator's entry on, `[]` for `NULL`. -/
structure Lexhash where
  table : List (List LexhashEntry)
  nextId : ℕ := 0
  entries : ℕ := 0
  autoGrow : Bool := true
  iterBucket : ℤ := -1
  iterPoint : List LexhashEntry := []
deriving Repr, DecidableEq

def clNewLexhash (buckets : ℤ) : Lexhash := { table := List.replicate (nrOfBuckets buckets) [] }

def clLexhashCheckGrow (fill : FillRate) (hash : Lexhash) : Option Lexhash := do
  let (table, autoGrow) ← checkGrow LexhashEntry.key hashString fill hash.autoGrow hash.entries hash.table
  some { hash with table := table, autoGrow := autoGrow }

def clLexhashFind (hash : Lexhash) (token : List UInt8) : Option LexhashEntry :=
  lookup LexhashEntry.key hashString hash.table token

def clLexhashAdd (fill : FillRate) (hash : Lexhash) (token : List UInt8) : Option Lexhash :=
  let offset := slot hashString hash.table token
  match clLexhashFind hash token with
  | some _ =>
    some { hash with
      table := hash.table.modify offset (changeFirst LexhashEntry.key token fun e => { e with freq := e.freq + 1 }) }
  | none =>
    let entry : LexhashEntry := { key := token, freq := 1, id := hash.nextId }
    let hash := { hash with
      table := hash.table.modify offset (· ++ [entry]), nextId := hash.nextId + 1, entries := hash.entries + 1 }
    if hash.autoGrow ∧ fill.exceedsOnAdd hash.entries hash.table.length then clLexhashCheckGrow fill hash
    else some hash

def clLexhashId (hash : Lexhash) (token : List UInt8) : ℤ :=
  match clLexhashFind hash token with
  | some entry => entry.id
  | none => -1

def clLexhashFreq (hash : Lexhash) (token : List UInt8) : ℕ :=
  match clLexhashFind hash token with
  | some entry => entry.freq
  | none => 0

/-- `cl_lexhash_del`: the frequency of the deleted entry and the hash. -/
def clLexhashDel (hash : Lexhash) (token : List UInt8) : ℕ × Lexhash :=
  match clLexhashFind hash token with
  | none => (0, hash)
  | some entry =>
    (entry.freq, { hash with
      table := hash.table.modify (slot hashString hash.table token) (removeFirst LexhashEntry.key token)
      entries := hash.entries - 1 })

def clLexhashSize (hash : Lexhash) : ℕ := hash.entries

def clLexhashIteratorReset (hash : Lexhash) : Lexhash := { hash with iterBucket := -1, iterPoint := [] }

/-- `cl_lexhash_iterator_next`; the loop passes over at most all buckets. -/
def clLexhashIteratorNext : ℕ → Lexhash → Option LexhashEntry × Lexhash
  | 0, hash => (none, hash)
  | fuel + 1, hash =>
    match hash.iterPoint with
    | point :: rest => (some point, { hash with iterPoint := rest })
    | [] =>
      let iterBucket := hash.iterBucket + 1
      if iterBucket ≥ hash.table.length then (none, { hash with iterBucket := iterBucket })
      else
        clLexhashIteratorNext fuel { hash with
          iterBucket := iterBucket, iterPoint := hash.table.getD iterBucket.toNat [] }

/-- The entries that the iterator returns until it is at the end. -/
def iteratorRun : ℕ → Lexhash → List LexhashEntry
  | 0, _ => []
  | fuel + 1, hash =>
    match clLexhashIteratorNext (hash.table.length + 2) hash with
    | (none, _) => []
    | (some point, hash) => point :: iteratorRun fuel hash

/-- The calls on a lexhash. -/
inductive LexhashOp where
  | add (token : List UInt8)
  | find (token : List UInt8)
  | id (token : List UInt8)
  | freq (token : List UInt8)
  | del (token : List UInt8)
  | autoGrow (flag : Bool)
deriving Repr, DecidableEq

def lexhashStep (fill : FillRate) (hash : Lexhash) : LexhashOp → Option Lexhash
  | .add token => clLexhashAdd fill hash token
  | .find _ | .id _ | .freq _ => some hash
  | .del token => some (clLexhashDel hash token).2
  | .autoGrow flag => some { hash with autoGrow := flag }

def lexhashRun (fill : FillRate) (hash : Lexhash) (ops : List LexhashOp) : Option Lexhash :=
  ops.foldlM (lexhashStep fill) hash

/-! N-grams. -/

/-- `hash_ngram`, over the bytes of the integers, least significant byte first. -/
def hashNgram {N : ℕ} (tuple : Vector UInt32 N) : ℕ :=
  ((tuple.toList.flatMap fun n => (List.range 4).map fun i => (n >>> (8 * i).toUInt32) &&& 255).foldl
    (fun (result : UInt32) c => (result * (33 : UInt32)) ^^^ (result >>> (27 : UInt32)) ^^^ c) 5381).toNat

def MAX_ENTRIES : ℕ := 2147483647

structure NgramHashEntry (N : ℕ) where
  ngram : Vector UInt32 N
  freq : UInt32
deriving Repr, DecidableEq

structure NgramHash (N : ℕ) where
  table : List (List (NgramHashEntry N))
  entries : ℕ := 0
  autoGrow : Bool := true
deriving Repr, DecidableEq

variable {N : ℕ}

def clNewNgramHash (N : ℕ) (buckets : ℤ) : NgramHash N := { table := List.replicate (nrOfBuckets buckets) [] }

def clNgramHashCheckGrow (fill : FillRate) (hash : NgramHash N) : Option (NgramHash N) := do
  let (table, autoGrow) ← checkGrow NgramHashEntry.ngram hashNgram fill hash.autoGrow hash.entries hash.table
  some { hash with table := table, autoGrow := autoGrow }

def clNgramHashFind (hash : NgramHash N) (ngram : Vector UInt32 N) : Option (NgramHashEntry N) :=
  lookup NgramHashEntry.ngram hashNgram hash.table ngram

def clNgramHashAdd (fill : FillRate) (hash : NgramHash N) (ngram : Vector UInt32 N) (f : UInt32) :
    Option (NgramHash N) :=
  let offset := slot hashNgram hash.table ngram
  match clNgramHashFind hash ngram with
  | some _ =>
    some { hash with
      table := hash.table.modify offset
        (changeFirst NgramHashEntry.ngram ngram fun e => { e with freq := e.freq + f }) }
  | none =>
    if hash.entries < MAX_ENTRIES then
      let entry : NgramHashEntry N := { ngram := ngram, freq := f }
      let hash := { hash with
        table := hash.table.modify offset (· ++ [entry]), entries := hash.entries + 1 }
      if hash.autoGrow ∧ fill.exceedsOnAdd hash.entries hash.table.length then clNgramHashCheckGrow fill hash
      else some hash
    else none

def clNgramHashFreq (hash : NgramHash N) (ngram : Vector UInt32 N) : UInt32 :=
  match clNgramHashFind hash ngram with
  | some entry => entry.freq
  | none => 0

def clNgramHashDel (hash : NgramHash N) (ngram : Vector UInt32 N) : UInt32 × NgramHash N :=
  match clNgramHashFind hash ngram with
  | none => (0, hash)
  | some entry =>
    (entry.freq, { hash with
      table := hash.table.modify (slot hashNgram hash.table ngram) (removeFirst NgramHashEntry.ngram ngram)
      entries := hash.entries - 1 })

def clNgramHashSize (hash : NgramHash N) : ℕ := hash.entries

/-- The inner loop of `cl_ngram_hash_get_entries`: one bucket is copied behind `point`
entries, each after the check that there is room for it. -/
def copyBucket (size : ℕ) (result : List (NgramHashEntry N)) (bucket : List (NgramHashEntry N)) :
    Option (List (NgramHashEntry N)) :=
  bucket.foldlM (fun result entry => if result.length < size then some (result ++ [entry]) else none) result

/-- `cl_ngram_hash_get_entries`: the array and the number stored in `*ret_size`. -/
def clNgramHashGetEntries (hash : NgramHash N) : Option (List (NgramHashEntry N) × ℕ) := do
  let result ← hash.table.foldlM (copyBucket hash.entries) []
  if result.length = hash.entries then some (result, hash.entries) else none

inductive NgramHashOp (N : ℕ) where
  | add (ngram : Vector UInt32 N) (f : UInt32)
  | find (ngram : Vector UInt32 N)
  | freq (ngram : Vector UInt32 N)
  | del (ngram : Vector UInt32 N)
  | autoGrow (flag : Bool)
deriving Repr, DecidableEq

def ngramHashStep (fill : FillRate) (hash : NgramHash N) : NgramHashOp N → Option (NgramHash N)
  | .add ngram f => clNgramHashAdd fill hash ngram f
  | .find _ | .freq _ => some hash
  | .del ngram => some (clNgramHashDel hash ngram).2
  | .autoGrow flag => some { hash with autoGrow := flag }

def ngramHashRun (fill : FillRate) (hash : NgramHash N) (ops : List (NgramHashOp N)) : Option (NgramHash N) :=
  ops.foldlM (ngramHashStep fill) hash

end CWB
