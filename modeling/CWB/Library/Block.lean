import Mathlib.Data.List.Basic
import Mathlib.Tactic

/-! A block of bytes and what a reader sees at an offset of it: little-endian 32-bit words,
vectors of words, zero-terminated strings and padding. A read past the end of the block has
no value. `field.At p bytes` says that `bytes` begin at offset `p`. -/

abbrev Byte := UInt8

abbrev Block := List Byte

namespace Block

open Nat List

def ofWord (w : BitVec 32) : Block :=
  [⟨w.extractLsb' 0 8⟩, ⟨w.extractLsb' 8 8⟩, ⟨w.extractLsb' 16 8⟩, ⟨w.extractLsb' 24 8⟩]

def ofWords (ws : List (BitVec 32)) : Block := ws.flatMap ofWord

/-- A string with its terminator. -/
def ofString (s : List Byte) : Block := s ++ [0]

def readWord (field : Block) (p : ℕ) : Option (BitVec 32) :=
  match field.drop p with
  | b0 :: b1 :: b2 :: b3 :: _ => some (b3.toBitVec ++ b2.toBitVec ++ b1.toBitVec ++ b0.toBitVec)
  | _ => none

def readWords (field : Block) : ℕ → ℕ → Option (List (BitVec 32))
  | 0, _ => some []
  | n + 1, p => do
    let w ← readWord field p
    let ws ← readWords field n (p + 4)
    pure (w :: ws)

/-- The string that begins with these bytes, without its terminator. -/
def scanString : Block → Option (List Byte)
  | [] => none
  | b :: rest => if b = 0 then some [] else (scanString rest).map (b :: ·)

def readString (field : Block) (p : ℕ) : Option (List Byte) := scanString (field.drop p)

/-- The first multiple of `n` from `p` on. -/
def align (n p : ℕ) : ℕ := p + (n - p % n) % n

def At (field : Block) (p : ℕ) (bytes : Block) : Prop := ∃ rest, field.drop p = bytes ++ rest

variable {field bytes bytes' : Block} {p : ℕ}

@[simp] theorem length_ofWord (w : BitVec 32) : (ofWord w).length = 4 := rfl

@[simp] theorem length_ofWords (ws : List (BitVec 32)) : (ofWords ws).length = 4 * ws.length := by
  induction ws with
  | nil => rfl
  | cons w ws ih =>
    have h : ofWords (w :: ws) = ofWord w ++ ofWords ws := rfl
    rw [h, length_append, ih, length_ofWord, length_cons]
    omega

@[simp] theorem length_ofString (s : List Byte) : (ofString s).length = s.length + 1 := by
  simp [ofString]

theorem at_refl (bytes rest : Block) : At (bytes ++ rest) 0 bytes := ⟨rest, rfl⟩

/-- What comes after a prefix is where the prefix ends. -/
theorem At.skip (h : field.At p (bytes ++ bytes')) : field.At (p + bytes.length) bytes' := by
  obtain ⟨rest, h⟩ := h
  refine ⟨rest, ?_⟩
  rw [← drop_drop, h, append_assoc, drop_left]

theorem At.left (h : field.At p (bytes ++ bytes')) : field.At p bytes := by
  obtain ⟨rest, h⟩ := h
  exact ⟨bytes' ++ rest, by rw [h, append_assoc]⟩

theorem readWord_ofWord {w : BitVec 32} (h : field.At p (ofWord w)) : field.readWord p = some w := by
  obtain ⟨rest, h⟩ := h
  simp only [readWord, h, ofWord, cons_append, nil_append]
  congr 1
  apply BitVec.eq_of_toNat_eq
  have hw := w.isLt
  simp only [BitVec.toNat_append, BitVec.extractLsb'_toNat, shiftRight_eq_div_pow, shiftLeft_eq]
  simp only [← shiftLeft_eq, ← shiftLeft_add_eq_or_of_lt (mod_lt _ (by decide : 0 < 2 ^ 8))]
  simp only [shiftLeft_eq]
  omega

theorem readWords_ofWords {ws : List (BitVec 32)} (h : field.At p (ofWords ws)) :
    field.readWords ws.length p = some ws := by
  induction ws generalizing p with
  | nil => rfl
  | cons w ws ih =>
    have h' : field.At p (ofWord w ++ ofWords ws) := h
    have htail := ih h'.skip
    rw [length_ofWord] at htail
    simp [readWords, readWord_ofWord h'.left, htail]

variable {s : List Byte}

theorem readString_ofString (hs : 0 ∉ s) (h : field.At p (ofString s)) :
    field.readString p = some s := by
  obtain ⟨rest, h⟩ := h
  rw [readString, h, ofString, append_assoc]
  clear h
  induction s with
  | nil => rfl
  | cons b s ih =>
    obtain ⟨hb, hs⟩ := not_or.mp (mt mem_cons.mpr hs)
    rw [cons_append, scanString, if_neg (Ne.symm hb), ih hs]
    rfl

theorem align_of_dvd {n p : ℕ} (hn : 0 < n) : n ∣ align n p := by
  have h := div_add_mod p n
  have hlt := mod_lt p hn
  unfold align
  obtain hz | hz := Nat.eq_zero_or_pos (p % n)
  · rw [hz, Nat.sub_zero, mod_self, Nat.add_zero]
    exact dvd_of_mod_eq_zero hz
  · rw [mod_eq_of_lt (by omega : n - p % n < n)]
    refine ⟨p / n + 1, ?_⟩
    rw [Nat.mul_add]
    omega

/-! A read that succeeds stays inside the block, and gives the same in any longer block. -/

theorem drop_append_of_lt {more : Block} (h : field.drop p ≠ []) :
    (field ++ more).drop p = field.drop p ++ more := by
  have hlt : p < field.length := by
    by_contra hle
    exact h (drop_eq_nil_of_le (by omega))
  exact drop_append_of_le_length hlt.le

theorem readWord_extend {w : BitVec 32} (h : field.readWord p = some w) (more : Block) :
    (field ++ more).readWord p = some w ∧ p + 4 ≤ field.length := by
  unfold readWord at h
  split at h
  · rename_i b0 b1 b2 b3 rest hd
    have hlen := congrArg List.length hd
    simp only [length_drop, length_cons] at hlen
    refine ⟨?_, by omega⟩
    rw [readWord, drop_append_of_lt (by simp [hd]), hd]
    exact h
  · cases h

theorem readWords_extend {n : ℕ} {ws : List (BitVec 32)} (hp : p ≤ field.length)
    (h : field.readWords n p = some ws) (more : Block) :
    (field ++ more).readWords n p = some ws ∧ p + 4 * n ≤ field.length := by
  induction n generalizing p ws with
  | zero => exact ⟨h, by omega⟩
  | succ n ih =>
    simp only [readWords, Option.bind_eq_bind, Option.bind_eq_some_iff, Option.pure_def, Option.some.injEq] at h
    obtain ⟨w, hw, ws', hws, rfl⟩ := h
    obtain ⟨hw', hle⟩ := readWord_extend hw more
    obtain ⟨hws', hle'⟩ := ih hle hws
    refine ⟨?_, by omega⟩
    simp [readWords, hw', hws']

theorem scanString_extend (h : scanString bytes = some s) (more : Block) :
    scanString (bytes ++ more) = some s ∧ s.length + 1 ≤ bytes.length := by
  induction bytes generalizing s with
  | nil => cases h
  | cons b rest ih =>
    simp only [scanString, cons_append] at h ⊢
    split_ifs at h ⊢ with hb
    · cases h
      exact ⟨rfl, by simp⟩
    · obtain ⟨s', hs', rfl⟩ := Option.map_eq_some_iff.mp h
      obtain ⟨hr, hle⟩ := ih hs'
      refine ⟨by rw [hr]; rfl, ?_⟩
      simp only [length_cons]
      omega

theorem readString_extend (h : field.readString p = some s) (more : Block) :
    (field ++ more).readString p = some s ∧ p + s.length + 1 ≤ field.length := by
  have hne : field.drop p ≠ [] := by
    intro hnil
    rw [readString, hnil] at h
    cases h
  obtain ⟨hr, hle⟩ := scanString_extend h more
  rw [length_drop] at hle
  refine ⟨?_, by omega⟩
  rw [readString, drop_append_of_lt hne, hr]

/-! The length of a block as a signed 32-bit number. -/

theorem toInt_count {len : ℕ} (h : len < 2 ^ 31) : (BitVec.ofNat 32 len).toInt = len := by
  rw [BitVec.toInt_eq_toNat_cond, BitVec.toNat_ofNat]
  split_ifs <;> omega

theorem toInt_count_lt {len : ℕ} (h : 2 ^ 31 ≤ len) : (BitVec.ofNat 32 len).toInt < len := by
  have hlt := BitVec.toInt_lt (x := BitVec.ofNat 32 len)
  omega

/-! Strings as arguments, and what a program writes into a block. A write past the end of the block
has no result. -/

/-- A string without its terminator; no object of a program has `2 ^ 62` bytes. -/
@[ext] structure Str where
  chars : List Byte
  noZero : 0 ∉ chars
  length_lt : chars.length < 2 ^ 62
deriving DecidableEq

def store (field : Block) (p : ℕ) (bytes : Block) : Option Block :=
  if p + bytes.length ≤ field.length then some (field.take p ++ bytes ++ field.drop (p + bytes.length)) else none

/-- A block of `n` bytes as it comes from a heap with unknown content. -/
def malloc (heap : ℕ → Byte) (n : ℕ) : Block := (range n).map heap

/-- The bytes that fit into the new size stay. -/
def realloc (heap : ℕ → Byte) (field : Block) (n : ℕ) : Block := field.take n ++ (malloc heap n).drop field.length

theorem store_of_le (h : p + bytes.length ≤ field.length) :
    store field p bytes = some (field.take p ++ bytes ++ field.drop (p + bytes.length)) := if_pos h

theorem length_of_store (h : store field p bytes = some bytes') : bytes'.length = field.length := by
  unfold store at h
  split_ifs at h with hle
  obtain rfl := Option.some.inj h
  simp only [length_append, length_take, length_drop]
  omega

@[simp] theorem length_malloc (heap : ℕ → Byte) (n : ℕ) : (malloc heap n).length = n := by
  rw [malloc, length_map, length_range]

@[simp] theorem length_realloc (heap : ℕ → Byte) (field : Block) (n : ℕ) : (realloc heap field n).length = n := by
  rw [realloc, length_append, length_take, length_drop, length_malloc]
  omega

/-- What a block begins with is kept by an allocation that has room for it. -/
theorem isPrefix_realloc {heap : ℕ → Byte} {n : ℕ} (h : bytes <+: field) (hn : bytes.length ≤ n) :
    bytes <+: realloc heap field n := by
  have htake : bytes <+: field.take n := by
    obtain ⟨rest, rfl⟩ := h
    rw [take_append, take_of_length_le hn]
    exact prefix_append _ _
  exact htake.trans (prefix_append _ _)

theorem isPrefix_of_store (h : store field 0 bytes = some bytes') : bytes <+: bytes' := by
  unfold store at h
  split_ifs at h
  obtain rfl := Option.some.inj h
  rw [take_zero, nil_append]
  exact prefix_append _ _

/-- A write at the end of what the block begins with. -/
theorem isPrefix_of_store_end {start : Block} (hstart : start <+: field) (h : store field start.length bytes = some bytes') :
    start ++ bytes <+: bytes' := by
  unfold store at h
  split_ifs at h
  obtain rfl := Option.some.inj h
  rw [← prefix_iff_eq_take.mp hstart]
  exact prefix_append _ _

theorem scanString_of_prefix (hs : 0 ∉ s) (h : ofString s <+: field) : field.scanString = some s := by
  obtain ⟨rest, rfl⟩ := h
  exact readString_ofString hs (at_refl (ofString s) rest)

end Block

/-! A table of pairwise different strings, in order of first occurrence, and its file: the
strings with their terminators one after the other, and a list of the offsets at which they
begin. -/

namespace StringTable

/-- The different entries of a list, each at its first occurrence. -/
def firstOccurrences {α : Type} [DecidableEq α] (l : List α) : List α :=
  l.foldl (fun acc a => if a ∈ acc then acc else acc ++ [a]) []

section FirstOccurrences

variable {α : Type} [DecidableEq α]

theorem firstOccurrences_snoc (l : List α) (a : α) :
    firstOccurrences (l ++ [a]) =
      if a ∈ firstOccurrences l then firstOccurrences l else firstOccurrences l ++ [a] := by
  rw [firstOccurrences, List.foldl_append]
  rfl

theorem mem_firstOccurrences {l : List α} {a : α} : a ∈ firstOccurrences l ↔ a ∈ l := by
  induction l using List.reverseRecOn with
  | nil => simp [firstOccurrences]
  | append_singleton l b ih =>
    rw [firstOccurrences_snoc, List.mem_append, List.mem_singleton]
    split_ifs with hb
    · constructor
      · intro h
        exact .inl (ih.mp h)
      · intro h
        obtain h | rfl := h
        · exact ih.mpr h
        · exact hb
    · rw [List.mem_append, List.mem_singleton, ih]

theorem nodup_firstOccurrences (l : List α) : (firstOccurrences l).Nodup := by
  induction l using List.reverseRecOn with
  | nil => exact List.nodup_nil
  | append_singleton l b ih =>
    rw [firstOccurrences_snoc]
    split_ifs with hb
    · exact ih
    · rw [List.nodup_append]
      refine ⟨ih, List.nodup_singleton b, ?_⟩
      intro x hx y hy hxy
      rw [List.mem_singleton] at hy
      exact hb (by rw [← hy, ← hxy]; exact hx)

theorem isPrefix_firstOccurrences (l l' : List α) : firstOccurrences l <+: firstOccurrences (l ++ l') := by
  induction l' using List.reverseRecOn with
  | nil => rw [List.append_nil]
  | append_singleton l' b ih =>
    rw [← List.append_assoc, firstOccurrences_snoc]
    split_ifs
    · exact ih
    · exact ih.trans (List.prefix_append _ _)

end FirstOccurrences

def bytes (ls : List (List Byte)) : Block := ls.flatMap Block.ofString

def offsets (ls : List (List Byte)) : List ℕ := (List.range ls.length).map fun k => (bytes (ls.take k)).length

@[simp] theorem bytes_nil : bytes [] = [] := rfl

@[simp] theorem offsets_nil : offsets [] = [] := rfl

@[simp] theorem length_offsets (ls : List (List Byte)) : (offsets ls).length = ls.length := by
  simp [offsets]

theorem bytes_append (ls ls' : List (List Byte)) : bytes (ls ++ ls') = bytes ls ++ bytes ls' := by
  simp [bytes]

theorem bytes_snoc (ls : List (List Byte)) (s : List Byte) : bytes (ls ++ [s]) = bytes ls ++ (s ++ [0]) := by
  simp [bytes, Block.ofString]

theorem offsets_snoc (ls : List (List Byte)) (s : List Byte) :
    offsets (ls ++ [s]) = offsets ls ++ [(bytes ls).length] := by
  simp only [offsets, List.length_append, List.length_singleton, List.range_succ, List.map_append, List.map_singleton]
  congr 1
  · refine List.map_congr_left fun k hk => ?_
    rw [List.take_append_of_le_length (List.mem_range.mp hk).le]
  · rw [List.take_left]

/-- The string that the offset of entry `k` points to is entry `k`. -/
theorem readString_offsets {ls : List (List Byte)} (h0 : ∀ s ∈ ls, 0 ∉ s) {k : ℕ} (hk : k < ls.length) :
    ∃ off, (offsets ls)[k]? = some off ∧ (bytes ls).readString off = some ls[k] := by
  refine ⟨(bytes (ls.take k)).length, ?_, ?_⟩
  · simp [offsets, hk]
  · have hsplit : ls = ls.take k ++ (ls[k] :: ls.drop (k + 1)) := by
      rw [← List.drop_eq_getElem_cons hk, List.take_append_drop]
    apply Block.readString_ofString (h0 _ (List.getElem_mem hk))
    refine ⟨bytes (ls.drop (k + 1)), ?_⟩
    conv_lhs => rw [hsplit, bytes_append]
    rw [List.take_append_of_le_length (by simp [hk.le]), List.take_take, Nat.min_self, List.drop_left]
    rfl

theorem length_bytes_le {ls ls' : List (List Byte)} (h : ls <+: ls') : (bytes ls).length ≤ (bytes ls').length := by
  obtain ⟨more, rfl⟩ := h
  rw [bytes_append, List.length_append]
  omega

end StringTable
