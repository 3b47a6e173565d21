import Mathlib
import CWB.Library.Comparators
import CWB.Spec.Bitfields

/-! A bit field is the list of its bits: every operation does to this list what its name says, the count
is the number of ones, and the two comparisons see nothing of a field but the list. -/

namespace CWB.Bitfields

open Nat Option List Comparators

/-! ## Words -/

theorem bitMask_getLsbD (element : ℕ) {k : ℕ} (hk : k < 8) :
    (bitMask element).getLsbD k = decide (k = element % BaseTypeBits) := by
  have hlt : element % BaseTypeBits < 8 := mod_lt _ (by decide)
  unfold bitMask
  generalize element % BaseTypeBits = j at hlt
  interval_cases j <;> interval_cases k <;> rfl

theorem lastItemMask_getLsbD {used k : ℕ} (hused : used < 8) (hk : k < 8) :
    (lastItemMask used).getLsbD k = decide (k < used) := by
  unfold lastItemMask
  interval_cases used <;> interval_cases k <;> rfl

/-- A word is changed in the bit of the element only, which becomes `b`. -/
def Becomes (element : ℕ) (b : Bool) (word word' : BFBaseType) : Prop :=
  ∀ k < 8, word'.getLsbD k = if k = element % BaseTypeBits then b else word.getLsbD k

theorem becomes_set (element : ℕ) (word : BFBaseType) : Becomes element true word (word ||| bitMask element) := by
  intro k hk
  rw [BitVec.getLsbD_or, bitMask_getLsbD element hk]
  by_cases h : k = element % BaseTypeBits
  · simp [h]
  · simp [h]

theorem becomes_clear (element : ℕ) (word : BFBaseType) : Becomes element false word (word &&& ~~~bitMask element) := by
  intro k hk
  rw [BitVec.getLsbD_and, BitVec.getLsbD_not, bitMask_getLsbD element hk]
  by_cases h : k = element % BaseTypeBits
  · simp [h]
  · simp [h, hk]

theorem becomes_toggle (element : ℕ) (word : BFBaseType) :
    Becomes element (!word.getLsbD (element % BaseTypeBits)) word (word ^^^ bitMask element) := by
  intro k hk
  rw [BitVec.getLsbD_xor, bitMask_getLsbD element hk]
  by_cases h : k = element % BaseTypeBits
  · simp [h]
  · simp [h]

variable {b : Bool}

theorem Becomes.ne_iff {element : ℕ} {word word' : BFBaseType} (h : Becomes element b word word') :
    word' ≠ word ↔ word.getLsbD (element % BaseTypeBits) ≠ b := by
  have hlt : element % BaseTypeBits < 8 := mod_lt _ (by decide)
  refine not_congr ⟨fun heq => ?_, fun hb => ?_⟩
  · have hbit := h _ hlt
    rwa [if_pos rfl, heq] at hbit
  · refine BitVec.eq_of_getLsbD_eq fun k hk => ?_
    rw [h k hk]
    split_ifs with hkey
    · rw [hkey, hb]
    · rfl

theorem and_bitMask_eq_zero_iff (element : ℕ) (word : BFBaseType) :
    word &&& bitMask element = 0 ↔ word.getLsbD (element % BaseTypeBits) = false := by
  have hlt : element % BaseTypeBits < 8 := mod_lt _ (by decide)
  constructor
  · intro h
    have hbit := congrArg (fun w => w.getLsbD (element % BaseTypeBits)) h
    simpa [bitMask_getLsbD element hlt] using hbit
  · intro h
    refine BitVec.eq_of_getLsbD_eq fun k hk => ?_
    rw [BitVec.getLsbD_and, bitMask_getLsbD element hk]
    by_cases hkey : k = element % BaseTypeBits
    · simp [hkey, h]
    · simp [hkey]

/-! ## The bits of a field -/

def Bitfield.bitAt (bf : Bitfield) (element : ℕ) : Bool :=
  (bf.field.getD (element / BaseTypeBits) 0).getLsbD (element % BaseTypeBits)

def Bitfield.bits (bf : Bitfield) : List Bool := (range bf.elements).map bf.bitAt

/-- A field as the operations leave it: its block holds all elements, and the count is that of the ones. -/
structure Bitfield.WF (bf : Bitfield) : Prop where
  bytes_eq : bf.bytes = (bf.elements + 7) / 8
  length_eq : bf.field.length = bf.bytes
  count_eq : bf.nrBitsSet = bf.bits.count true

variable {bf bf' : Bitfield} {element : ℕ}

@[simp] theorem length_bits (bf : Bitfield) : bf.bits.length = bf.elements := by simp [Bitfield.bits]

theorem bits_getElem? (h : element < bf.elements) : bf.bits[element]? = some (bf.bitAt element) := by
  simp [Bitfield.bits, h]

/-- The word with an element. -/
theorem Bitfield.WF.word (h : bf.WF) (he : element < bf.elements) :
    ∃ word, bf.field[element / BaseTypeBits]? = some word ∧
      word.getLsbD (element % BaseTypeBits) = bf.bitAt element := by
  have hlt : element / BaseTypeBits < bf.field.length := by
    rw [h.length_eq, h.bytes_eq, BaseTypeBits, BaseTypeSize]
    omega
  refine ⟨bf.field[element / BaseTypeBits], getElem?_eq_getElem hlt, ?_⟩
  rw [Bitfield.bitAt, getD_eq_getElem _ _ hlt]

theorem bits_of_becomes {word word' : BFBaseType} (hword : bf.field[element / BaseTypeBits]? = some word)
    (hchange : Becomes element b word word') (nrBitsSet : ℤ) :
    Bitfield.bits { bf with field := bf.field.set (element / BaseTypeBits) word', nrBitsSet := nrBitsSet } =
      bf.bits.set element b := by
  obtain ⟨hlt, hget⟩ := List.getElem?_eq_some_iff.mp hword
  refine ext_getElem (by simp) fun i hi hi' => ?_
  have hmod : i % BaseTypeBits < 8 := mod_lt _ (by decide)
  simp only [Bitfield.bits, getElem_map, getElem_range, getElem_set, Bitfield.bitAt, getD_eq_getElem?_getD,
    getElem?_set]
  by_cases hcell : element / BaseTypeBits = i / BaseTypeBits
  · have hi : i % BaseTypeBits = element % BaseTypeBits ↔ element = i := by
      rw [BaseTypeBits, BaseTypeSize] at hcell ⊢
      omega
    rw [if_pos hcell, if_pos (hcell ▸ hlt), getD_some, hchange _ hmod, ← hcell, hword]
    simp only [hi, getD_some]
  · have hne : element ≠ i := fun h => hcell (by rw [h])
    rw [if_neg hcell, if_neg hne]

/-- What setting one bit does to the number of ones. -/
theorem count_set_true {l : List Bool} {i : ℕ} {old : Bool} (h : l[i]? = some old) (b : Bool) :
    ((l.set i b).count true : ℤ) = l.count true - old.toNat + b.toNat := by
  obtain ⟨hlt, hget⟩ := List.getElem?_eq_some_iff.mp h
  have hpos : old = true → 0 < l.count true := fun hold => by
    rw [count_pos_iff, ← hold, ← hget]
    exact getElem_mem hlt
  rw [count_set hlt, hget]
  cases old with
  | false => cases b <;> simp
  | true =>
    have hcount := hpos rfl
    cases b <;> simp <;> omega

/-- One word is changed and the count with it. -/
theorem Bitfield.WF.update {word word' : BFBaseType} (h : bf.WF) (he : element < bf.elements)
    (hword : bf.field[element / BaseTypeBits]? = some word) (hchange : Becomes element b word word') {nrBitsSet : ℤ}
    (hcount : nrBitsSet = bf.nrBitsSet - (bf.bitAt element).toNat + b.toNat) :
    Bitfield.WF { bf with field := bf.field.set (element / BaseTypeBits) word', nrBitsSet := nrBitsSet } := by
  refine ⟨h.bytes_eq, ?_, ?_⟩
  · rw [length_set, h.length_eq]
  · rw [bits_of_becomes hword hchange, count_set_true (bits_getElem? he), hcount, h.count_eq]

/-! ## What the operations do -/

/-- An operation returned `result`, and left a field with the bits `bits`. -/
def Yields (r : Option (ℤ × Bitfield)) (result : ℤ) (bits : List Bool) : Prop :=
  ∃ bf, r = some (result, bf) ∧ bf.WF ∧ bf.bits = bits

theorem createBitfield_wf (n : ℕ) : (createBitfield n).WF ∧ (createBitfield n).bits = replicate n false := by
  have hbits : (createBitfield n).bits = replicate n false := by
    refine ext_getElem (by simp [createBitfield]) fun i hi hi' => ?_
    simp [Bitfield.bits, Bitfield.bitAt, createBitfield, getD_eq_getElem?_getD, getElem?_replicate]
    split_ifs <;> simp
  refine ⟨⟨?_, ?_, ?_⟩, hbits⟩
  · by_cases h : n % 8 = 0
    · simp [createBitfield, BaseTypeBits, BaseTypeSize, h]
      omega
    · simp [createBitfield, BaseTypeBits, BaseTypeSize, h]
      omega
  · simp [createBitfield]
  · rw [hbits]
    simp [createBitfield, count_replicate]

theorem copyBitfield_eq (h : bf.WF) : copyBitfield bf = bf := by
  have hbytes : (createBitfield bf.elements).bytes = bf.bytes := by
    rw [(createBitfield_wf bf.elements).1.bytes_eq, h.bytes_eq]
    rfl
  have hdrop : (createBitfield bf.elements).field.drop bf.bytes = [] := by
    rw [drop_eq_nil_iff, (createBitfield_wf bf.elements).1.length_eq, hbytes]
  rw [copyBitfield, hdrop, take_of_length_le h.length_eq.le, append_nil, hbytes]
  rfl

theorem changeBit_yields {change : BFBaseType → BFBaseType} (h : bf.WF)
    (hchange : ∀ word, Becomes element b word (change word)) :
    Yields (changeBit bf element change (if b then 1 else -1)) (if element < bf.elements then 1 else 0)
      (bf.bits.set element b) := by
  unfold changeBit
  by_cases he : element < bf.elements
  · obtain ⟨word, hword, hbit⟩ := h.word he
    rw [if_pos he, if_pos he, hword]
    refine ⟨_, rfl, h.update he hword (hchange word) ?_, bits_of_becomes hword (hchange word) _⟩
    have hne := (hchange word).ne_iff
    rw [hbit] at hne
    simp only [hne]
    cases b with
    | false => cases bf.bitAt element <;> simp [sub_eq_add_neg]
    | true => cases bf.bitAt element <;> simp
  · rw [if_neg he, if_neg he]
    exact ⟨bf, rfl, h, (set_eq_of_length_le (by simpa using he)).symm⟩

theorem toggleBit_yields (h : bf.WF) (element : ℕ) :
    Yields (toggleBit bf element) (if element < bf.elements then 1 else 0) (bf.bits.modify element not) := by
  unfold toggleBit
  by_cases he : element < bf.elements
  · obtain ⟨word, hword, hbit⟩ := h.word he
    have hchange := becomes_toggle element word
    rw [hbit] at hchange
    have hmodify : bf.bits.modify element not = bf.bits.set element (!bf.bitAt element) := by
      rw [modify_eq_set_getElem?, bits_getElem? he]
      rfl
    rw [if_pos he, if_pos he, hword, hmodify]
    refine ⟨_, rfl, h.update he hword hchange ?_, bits_of_becomes hword hchange _⟩
    simp only [and_bitMask_eq_zero_iff, hbit]
    cases bf.bitAt element <;> simp
  · rw [if_neg he, if_neg he]
    exact ⟨bf, rfl, h, (modify_eq_self (by simpa using he)).symm⟩

theorem bits_replicate (bf : Bitfield) {word : BFBaseType} (hword : ∀ k < 8, word.getLsbD k = b)
    (hbytes : bf.bytes = (bf.elements + 7) / 8) (nrBitsSet : ℤ) :
    Bitfield.bits { bf with field := replicate bf.bytes word, nrBitsSet := nrBitsSet } = replicate bf.elements b := by
  refine ext_getElem (by simp) fun i hi hi' => ?_
  simp only [length_bits] at hi
  have hlt : i / BaseTypeBits < bf.bytes := by
    rw [hbytes, BaseTypeBits, BaseTypeSize]
    omega
  simp only [Bitfield.bits, getElem_map, getElem_range, Bitfield.bitAt, getElem_replicate]
  rw [getD_replicate _ hlt]
  exact hword _ (mod_lt _ (by decide))

/-- All bits become `b`. -/
theorem fill_yields (h : bf.WF) {word : BFBaseType} (hword : ∀ k < 8, word.getLsbD k = b) {nrBitsSet : ℤ}
    (hcount : nrBitsSet = if b then (bf.elements : ℤ) else 0) :
    Yields (some (1, { bf with field := replicate bf.bytes word, nrBitsSet := nrBitsSet })) 1
      (replicate bf.elements b) := by
  have hbits := bits_replicate bf hword h.bytes_eq nrBitsSet
  refine ⟨_, rfl, ⟨h.bytes_eq, length_replicate .., ?_⟩, hbits⟩
  rw [hbits, hcount, count_replicate]
  cases b <;> simp

theorem getBit_eq (h : bf.WF) (element : ℕ) :
    getBit bf element = some ((bf.bits[element]?.map fun b => (b.toNat : ℤ)).getD (-1)) := by
  unfold getBit
  by_cases he : element < bf.elements
  · obtain ⟨word, hword, hbit⟩ := h.word he
    rw [if_pos he, hword, bits_getElem? he, ← hbit]
    have hzero := and_bitMask_eq_zero_iff element word
    cases hb : word.getLsbD (element % BaseTypeBits) with
    | false => simp [hzero.mpr hb]
    | true =>
      have hne : word &&& bitMask element ≠ 0 := fun h0 => by simp [hzero.mp h0] at hb
      simp only [bind_eq_bind, bind_some, if_neg hne]
      rfl
  · rw [if_neg he, getElem?_eq_none (by simpa using he)]
    rfl

/-! ## The comparisons -/

/-- The word with the bits from `BaseTypeBits * i` on, and zeros behind the last bit. -/
def wordAt (bits : List Bool) (i : ℕ) : BFBaseType := BitVec.ofFnLE fun k : Fin 8 => bits.getD (BaseTypeBits * i + k) false

/-- As many words as hold the bits. -/
def wordsOf (bits : List Bool) : List BFBaseType := (range ((bits.length + 7) / 8)).map (wordAt bits)

/-- The order of bit lists: that of their words, the first different one decides. -/
def compareBits (bits1 bits2 : List Bool) : ℤ := lexicographic compareWords (wordsOf bits1) (wordsOf bits2)

theorem wordAt_getLsbD (bits : List Bool) (i : ℕ) {k : ℕ} (hk : k < 8) :
    (wordAt bits i).getLsbD k = bits.getD (BaseTypeBits * i + k) false := by
  rw [wordAt, BitVec.getLsbD_ofFnLE]
  simp [hk]

theorem wordsOf_inj {bits1 bits2 : List Bool} (hlen : bits1.length = bits2.length) :
    wordsOf bits1 = wordsOf bits2 ↔ bits1 = bits2 := by
  refine ⟨fun h => ext_getElem hlen fun e he he' => ?_, fun h => by rw [h]⟩
  have hmod : e % 8 < 8 := mod_lt _ (by decide)
  have hword : wordAt bits1 (e / 8) = wordAt bits2 (e / 8) := by
    rw [wordsOf, wordsOf, hlen] at h
    exact map_inj_left.mp h (e / 8) (mem_range.mpr (by omega))
  have hbit := congrArg (fun w => w.getLsbD (e % 8)) hword
  rw [wordAt_getLsbD _ _ hmod, wordAt_getLsbD _ _ hmod, BaseTypeBits, BaseTypeSize, Nat.one_mul, div_add_mod] at hbit
  rwa [getD_eq_getElem _ _ he, getD_eq_getElem _ _ he'] at hbit

theorem compareWords_consistent : Consistent compareWords := by
  refine ⟨fun a b => compare (a.toNat : ℤ) b.toNat, ?_, fun a b => ?_⟩
  · have horiented : Std.OrientedCmp fun a b : BFBaseType => compare (a.toNat : ℤ) b.toNat := ⟨Std.OrientedCmp.eq_swap⟩
    exact ⟨Std.TransCmp.isLE_trans⟩
  · refine Eq.trans ?_ (compare_sub (a.toNat : ℤ) b.toNat)
    rw [compareWords]
    rcases lt_trichotomy ((a.toNat : ℤ) - b.toNat) 0 with hlt | h0 | hgt
    · rw [if_pos hlt, compare_lt_iff_lt.mpr hlt]
      rfl
    · rw [h0]
      rfl
    · rw [if_neg hgt.not_gt, if_pos hgt, compare_gt_iff_gt.mpr hgt]
      rfl

theorem compareWords_eq_zero_iff {word1 word2 : BFBaseType} : compareWords word1 word2 = 0 ↔ word1 = word2 := by
  rw [compareWords, ← BitVec.toNat_inj]
  split_ifs with hlt hgt
  · exact ⟨fun h => absurd h (by decide), fun h => by omega⟩
  · exact ⟨fun h => absurd h (by decide), fun h => by omega⟩
  · exact ⟨fun _ => by omega, fun _ => rfl⟩

theorem compareBits_consistent : Consistent compareBits := compareWords_consistent.lexicographic.comap wordsOf

theorem compareWords_swap (word1 word2 : BFBaseType) : compareWords word2 word1 = -compareWords word1 word2 := by
  rw [compareWords, compareWords]
  rcases lt_trichotomy (word1.toNat : ℤ) word2.toNat with hlt | heq | hgt
  · rw [if_neg (by omega), if_pos (by omega), if_pos (by omega)]
    rfl
  · rw [if_neg (by omega), if_neg (by omega), if_neg (by omega), if_neg (by omega)]
    rfl
  · rw [if_pos (by omega), if_neg (by omega), if_pos (by omega)]

theorem compareBits_swap (bits1 bits2 : List Bool) : compareBits bits2 bits1 = -compareBits bits1 bits2 :=
  lexicographic_swap compareWords_swap _ _

theorem compareBits_eq_zero_iff {bits1 bits2 : List Bool} (hlen : bits1.length = bits2.length) :
    compareBits bits1 bits2 = 0 ↔ bits1 = bits2 := by
  rw [compareBits, lexicographic_eq_zero_iff]
  simp only [compareWords_eq_zero_iff, forall₂_eq_eq_eq]
  exact wordsOf_inj hlen

/-- A word of a field holds its elements, and some padding. -/
theorem wordAt_bits {i k : ℕ} (hi : i < bf.field.length) (hk : k < 8) :
    (wordAt bf.bits i).getLsbD k = (decide (8 * i + k < bf.elements) && bf.field[i].getLsbD k) := by
  rw [wordAt_getLsbD _ _ hk, getD_eq_getElem?_getD, BaseTypeBits, BaseTypeSize, Nat.one_mul]
  by_cases helt : 8 * i + k < bf.elements
  · rw [bits_getElem? helt, getD_some, Bitfield.bitAt, BaseTypeBits, BaseTypeSize, Nat.one_mul, show (8 * i + k) / 8 = i by omega,
      show (8 * i + k) % 8 = k by omega, getD_eq_getElem _ _ hi, decide_eq_true helt, Bool.true_and]
  · rw [getElem?_eq_none (by simpa using helt), decide_eq_false helt]
    rfl

theorem Bitfield.WF.fullWord (h : bf.WF) {i : ℕ} (hi : i < bf.elements / 8) : bf.field[i]? = some (wordAt bf.bits i) := by
  have hlt : i < bf.field.length := by
    rw [h.length_eq, h.bytes_eq]
    omega
  rw [getElem?_eq_getElem hlt]
  refine congrArg some (BitVec.eq_of_getLsbD_eq fun k hk => ?_)
  rw [wordAt_bits hlt hk, decide_eq_true (by omega), Bool.true_and]

/-- The last word of a field without its padding. -/
theorem Bitfield.WF.lastWord (h : bf.WF) (hused : bf.elements % 8 ≠ 0) : ∃ word, bf.field[bf.elements / 8]? = some word ∧
    word &&& lastItemMask (bf.elements % 8) = wordAt bf.bits (bf.elements / 8) := by
  have hlt : bf.elements / 8 < bf.field.length := by
    rw [h.length_eq, h.bytes_eq]
    omega
  refine ⟨_, getElem?_eq_getElem hlt, BitVec.eq_of_getLsbD_eq fun k hk => ?_⟩
  have hkey : k < bf.elements % 8 ↔ 8 * (bf.elements / 8) + k < bf.elements := by omega
  rw [wordAt_bits hlt hk, BitVec.getLsbD_and, lastItemMask_getLsbD (mod_lt _ (by decide)) hk, decide_eq_decide.mpr hkey,
    Bool.and_comm]

/-- The loop over full words compares the words of the bit lists. -/
theorem compareItems_eq (h : bf.WF) (h' : bf'.WF) {is : List ℕ} (his : ∀ i ∈ is, i < bf.elements / 8 ∧ i < bf'.elements / 8) :
    compareItems bf.field bf'.field is =
      some (lexicographic compareWords (is.map (wordAt bf.bits)) (is.map (wordAt bf'.bits))) := by
  induction is with
  | nil => rfl
  | cons i is ih =>
    obtain ⟨hi, his⟩ := forall_mem_cons.mp his
    rw [compareItems, h.fullWord hi.1, h'.fullWord hi.2, ih his]
    simp only [bind_eq_bind, bind_some, map_cons, lexicographic]
    by_cases h0 : compareWords (wordAt bf.bits i) (wordAt bf'.bits i) = 0
    · rw [if_neg (not_not.mpr h0), if_pos h0]
    · rw [if_pos h0, if_neg h0]

theorem equalItems_eq (h : bf.WF) (h' : bf'.WF) {is : List ℕ} (his : ∀ i ∈ is, i < bf.elements / 8 ∧ i < bf'.elements / 8) :
    equalItems bf.field bf'.field is = some (decide (is.map (wordAt bf.bits) = is.map (wordAt bf'.bits))) := by
  induction is with
  | nil => rfl
  | cons i is ih =>
    obtain ⟨hi, his⟩ := forall_mem_cons.mp his
    rw [equalItems, h.fullWord hi.1, h'.fullWord hi.2, ih his]
    by_cases h0 : wordAt bf.bits i = wordAt bf'.bits i
    · simp [h0]
    · simp [h0]

/-- The words of the bit list: the full ones, and one more for the bits that are left. -/
theorem wordsOf_bits (bf : Bitfield) : wordsOf bf.bits = (range (bf.elements / 8)).map (wordAt bf.bits) ++
    if bf.elements % 8 = 0 then [] else [wordAt bf.bits (bf.elements / 8)] := by
  rw [wordsOf, length_bits]
  split_ifs with h
  · rw [append_nil, show (bf.elements + 7) / 8 = bf.elements / 8 by omega]
  · rw [show (bf.elements + 7) / 8 = bf.elements / 8 + 1 by omega, range_succ, map_append]
    rfl

theorem xor_and_distrib (word word' mask : BFBaseType) :
    (word ^^^ word') &&& mask = (word &&& mask) ^^^ (word' &&& mask) := by
  refine BitVec.eq_of_getLsbD_eq fun k hk => ?_
  simp only [BitVec.getLsbD_and, BitVec.getLsbD_xor]
  exact Bool.and_xor_distrib_right _ _ _

/-- `bf_compare` gives the order of the bit lists. -/
theorem bfCompare_eq (h : bf.WF) (h' : bf'.WF) (hsize : bf.elements = bf'.elements) :
    bfCompare bf bf' = some (compareBits bf.bits bf'.bits) := by
  have hbytes : bf.bytes = bf'.bytes := by rw [h.bytes_eq, h'.bytes_eq, hsize]
  have hloop := compareItems_eq h h' fun i (hi : i ∈ range (bf.elements / 8)) =>
    ⟨mem_range.mp hi, hsize ▸ mem_range.mp hi⟩
  have hlen : ((range (bf.elements / 8)).map (wordAt bf.bits)).length =
      ((range (bf.elements / 8)).map (wordAt bf'.bits)).length := by simp
  rw [compareBits, wordsOf_bits, wordsOf_bits, ← hsize, lexicographic_append hlen, bfCompare, if_pos ⟨hsize, hbytes⟩]
  simp only [BaseTypeBits, BaseTypeSize, Nat.one_mul, Nat.div_one]
  generalize hfull : lexicographic compareWords ((range (bf.elements / 8)).map (wordAt bf.bits))
    ((range (bf.elements / 8)).map (wordAt bf'.bits)) = full at hloop ⊢
  by_cases hused : bf.elements % 8 = 0
  · rw [if_neg (not_not.mpr hused), show bf.bytes = bf.elements / 8 by rw [h.bytes_eq]; omega, hloop, if_pos hused,
      if_pos hused]
    simp only [bind_eq_bind, bind_some, hused, ne_eq, not_true_eq_false, if_false, lexicographic]
    by_cases h0 : full = 0
    · rw [if_neg (not_not.mpr h0), if_pos h0]
    · rw [if_pos h0, if_neg h0]
  · obtain ⟨word, hword, hmask⟩ := h.lastWord hused
    obtain ⟨word', hword', hmask'⟩ := h'.lastWord (hsize ▸ hused)
    rw [← hsize] at hword' hmask'
    have hlast : lexicographic compareWords [wordAt bf.bits (bf.elements / 8)] [wordAt bf'.bits (bf.elements / 8)] =
        compareWords (wordAt bf.bits (bf.elements / 8)) (wordAt bf'.bits (bf.elements / 8)) := by
      rw [lexicographic, lexicographic]
      split_ifs with h0
      · exact h0.symm
      · rfl
    rw [if_pos hused, show bf.bytes - 1 = bf.elements / 8 by rw [h.bytes_eq]; omega, hloop, if_neg hused, if_neg hused, hlast]
    simp only [bind_eq_bind, bind_some, if_pos hused, hword, hword', hmask, hmask']
    by_cases h0 : full = 0
    · rw [if_neg (not_not.mpr h0), if_pos h0]
    · rw [if_pos h0, if_neg h0]

theorem bfEqual_eq (h : bf.WF) (h' : bf'.WF) (hsize : bf.elements = bf'.elements) :
    bfEqual bf bf' = some (decide (bf.bits = bf'.bits)) := by
  have hbytes : bf.bytes = bf'.bytes := by rw [h.bytes_eq, h'.bytes_eq, hsize]
  have hloop := equalItems_eq h h' fun i (hi : i ∈ range (bf.elements / 8)) =>
    ⟨mem_range.mp hi, hsize ▸ mem_range.mp hi⟩
  have hlen : bf.bits.length = bf'.bits.length := by rw [length_bits, length_bits, hsize]
  have hwords := wordsOf_inj hlen
  rw [wordsOf_bits, wordsOf_bits, ← hsize] at hwords
  rw [bfEqual, if_pos ⟨hsize, hbytes⟩]
  simp only [BaseTypeBits, BaseTypeSize, Nat.one_mul, Nat.div_one, ← hwords]
  by_cases hused : bf.elements % 8 = 0
  · rw [if_neg (not_not.mpr hused), show bf.bytes = bf.elements / 8 by rw [h.bytes_eq]; omega, hloop]
    simp [hused]
  · obtain ⟨word, hword, hmask⟩ := h.lastWord hused
    obtain ⟨word', hword', hmask'⟩ := h'.lastWord (hsize ▸ hused)
    rw [← hsize] at hword' hmask'
    rw [if_pos hused, show bf.bytes - 1 = bf.elements / 8 by rw [h.bytes_eq]; omega, hloop]
    have hxor : (word ^^^ word') &&& lastItemMask (bf.elements % 8) = 0 ↔
        wordAt bf.bits (bf.elements / 8) = wordAt bf'.bits (bf.elements / 8) := by
      rw [xor_and_distrib, hmask, hmask']
      exact BitVec.xor_eq_zero_iff
    simp only [bind_eq_bind, bind_some, if_neg hused, hword, hword']
    by_cases h0 : wordAt bf.bits (bf.elements / 8) = wordAt bf'.bits (bf.elements / 8)
    · rw [if_neg (not_not.mpr (hxor.mpr h0)), h0]
      simp
    · rw [if_pos (fun hzero => h0 (hxor.mp hzero))]
      simp [h0]

/-! ## Runs -/

/-- What a call does where bit fields are lists of bits. -/
def bitStep (store : List (List Bool)) : Call → Option ℤ × List (List Bool)
  | .createBitfield nrOfElements => (none, store ++ [replicate nrOfElements false])
  | .copyBitfield source => (none, store ++ store[source]?.toList)
  | .setBit i element => (some (if element < (store.getD i []).length then 1 else 0), store.modify i (·.set element true))
  | .clearBit i element => (some (if element < (store.getD i []).length then 1 else 0), store.modify i (·.set element false))
  | .toggleBit i element => (some (if element < (store.getD i []).length then 1 else 0), store.modify i (·.modify element not))
  | .setAllBits i => (some (if i < store.length then 1 else 0), store.modify i fun bits => replicate bits.length true)
  | .clearAllBits i => (some (if i < store.length then 1 else 0), store.modify i fun bits => replicate bits.length false)
  | .getBit i element => (some (((store.getD i [])[element]?.map fun b => (b.toNat : ℤ)).getD (-1)), store)

def bitRun : List (List Bool) → List Call → List (Option ℤ) × List (List Bool)
  | store, [] => ([], store)
  | store, call :: calls =>
    let (result, store) := bitStep store call
    let (results, store) := bitRun store calls
    (result :: results, store)

/-- All fields of a store are as the operations leave them. -/
def StoreWF (store : List Bitfield) : Prop := ∀ bf ∈ store, bf.WF

variable {store : List Bitfield}

theorem withBitfield_refines (h : StoreWF store) {i : ℕ} {failure : ℤ}
    {f : Bitfield → Option (ℤ × Bitfield)} (result : List Bool → ℤ) {change : List Bool → List Bool}
    (hf : ∀ bf : Bitfield, bf.WF → Yields (f bf) (result bf.bits) (change bf.bits))
    {r : ℤ} (hnull : store.length ≤ i → r = failure) (hsome : ∀ bits, (store.map Bitfield.bits)[i]? = some bits → r = result bits) :
    ∃ store', withBitfield store i failure f = some (some r, store') ∧ StoreWF store' ∧
      store'.map Bitfield.bits = (store.map Bitfield.bits).modify i change := by
  by_cases hi : i < store.length
  · obtain ⟨bf', hbf', hwf', hbits⟩ := hf store[i] (h _ (getElem_mem hi))
    have hr := hsome store[i].bits (by simp [hi])
    refine ⟨store.set i bf', ?_, ?_, ?_⟩
    · simp [withBitfield, hi, hbf', hr]
    · intro bf hbf
      obtain hbf | rfl := mem_or_eq_of_mem_set hbf
      · exact h bf hbf
      · exact hwf'
    · rw [map_set, hbits, modify_eq_set_getElem?]
      simp [hi]
  · have hi := Nat.le_of_not_lt hi
    refine ⟨store, ?_, h, ?_⟩
    · simp [withBitfield, getElem?_eq_none hi, hnull hi]
    · rw [modify_eq_self (by simpa using hi)]

/-- The operations on one element. -/
theorem withBitfield_element (h : StoreWF store) (i : ℕ) {f : Bitfield → Option (ℤ × Bitfield)} {change : List Bool → List Bool}
    (hf : ∀ bf : Bitfield, bf.WF → Yields (f bf) (if element < bf.elements then 1 else 0) (change bf.bits)) :
    ∃ store', withBitfield store i 0 f =
        some (some (if element < ((store.map Bitfield.bits).getD i []).length then 1 else 0), store') ∧ StoreWF store' ∧
      store'.map Bitfield.bits = (store.map Bitfield.bits).modify i change :=
  withBitfield_refines h (fun bits => if element < bits.length then 1 else 0)
    (fun bf hbf => by simpa using hf bf hbf) (fun hi => by simp [hi]) fun bits hbits => by
      rw [getD_eq_getElem?_getD, hbits, getD_some]

/-- A call does to the bit lists what it does to the fields, and returns the same number. -/
theorem step_refines (h : StoreWF store) (call : Call) :
    ∃ store', step store call = some ((bitStep (store.map Bitfield.bits) call).1, store') ∧ StoreWF store' ∧
      store'.map Bitfield.bits = (bitStep (store.map Bitfield.bits) call).2 := by
  cases call with
  | createBitfield n =>
    obtain ⟨hwf, hbits⟩ := createBitfield_wf n
    refine ⟨_, rfl, fun bf hbf => ?_, by simp [bitStep, hbits]⟩
    obtain hbf | hbf := mem_append.mp hbf
    · exact h bf hbf
    · rw [mem_singleton.mp hbf]
      exact hwf
  | copyBitfield source =>
    have hcopy : store[source]?.map copyBitfield = store[source]? := by
      cases hs : store[source]? with
      | none => rfl
      | some bf => exact congrArg some (copyBitfield_eq (h bf (mem_of_getElem? hs)))
    refine ⟨store ++ store[source]?.toList, by simp [step, bitStep, hcopy], fun bf hbf => ?_, ?_⟩
    · obtain hbf | hbf := mem_append.mp hbf
      · exact h bf hbf
      · exact h bf (mem_of_getElem? (mem_toList.mp hbf))
    · cases hs : store[source]? with
      | none => simp [bitStep, hs]
      | some bf => simp [bitStep, hs]
  | setBit i element => exact withBitfield_element h i fun bf hbf => changeBit_yields hbf (becomes_set element)
  | clearBit i element => exact withBitfield_element h i fun bf hbf => changeBit_yields hbf (becomes_clear element)
  | toggleBit i element => exact withBitfield_element h i fun bf hbf => toggleBit_yields hbf element
  | setAllBits i =>
    exact withBitfield_refines h (fun _ => 1) (fun bf hbf => by simpa [setAllBits] using fill_yields hbf (b := true) (by decide) rfl)
      (fun hi => by simp [hi]) fun bits hbits => by rw [if_pos (List.getElem?_eq_some_iff.mp hbits).1]
  | clearAllBits i =>
    exact withBitfield_refines h (fun _ => 1) (fun bf hbf => by simpa [clearAllBits] using fill_yields hbf (b := false) (by decide) rfl)
      (fun hi => by simp [hi]) fun bits hbits => by rw [if_pos (List.getElem?_eq_some_iff.mp hbits).1]
  | getBit i element =>
    have hget : ∃ store', withBitfield store i (-1) (fun bf => (getBit bf element).map fun bit => (bit, bf)) =
        some (some ((((store.map Bitfield.bits).getD i [])[element]?.map fun b => (b.toNat : ℤ)).getD (-1)), store') ∧
        StoreWF store' ∧ store'.map Bitfield.bits = (store.map Bitfield.bits).modify i id :=
      withBitfield_refines h (fun bits => (bits[element]?.map fun b => (b.toNat : ℤ)).getD (-1))
        (fun bf hbf => ⟨bf, by rw [getBit_eq hbf, map_some], hbf, rfl⟩)
        (fun hi => by simp [getElem?_eq_none hi])
        fun bits hbits => by rw [getD_eq_getElem?_getD, hbits, getD_some]
    rwa [modify_id] at hget

theorem run_refines (h : StoreWF store) (calls : List Call) :
    ∃ store', run store calls = some ((bitRun (store.map Bitfield.bits) calls).1, store') ∧ StoreWF store' ∧
      store'.map Bitfield.bits = (bitRun (store.map Bitfield.bits) calls).2 := by
  induction calls generalizing store with
  | nil => exact ⟨store, rfl, h, rfl⟩
  | cons call calls ih =>
    obtain ⟨store₁, hstep, hwf, hbits⟩ := step_refines h call
    obtain ⟨store₂, hrun, hwf₂, hbits₂⟩ := ih hwf
    rw [hbits] at hrun hbits₂
    refine ⟨store₂, ?_, hwf₂, hbits₂⟩
    simp only [run, hstep, hrun, bind_eq_bind, bind_some]
    rfl

/-- The elements for which `get_bit` is 1. -/
def elementsSet (bf : Bitfield) : List ℕ := (range bf.elements).filter fun element => getBit bf element = some 1

/-- `get_bit` agrees on all elements. -/
def SameBits (bf1 bf2 : Bitfield) : Prop :=
  bf1.elements = bf2.elements ∧ ∀ element < bf1.elements, getBit bf1 element = getBit bf2 element

theorem getBit_of_lt (h : bf.WF) (he : element < bf.elements) : getBit bf element = some (bf.bitAt element).toNat := by
  rw [getBit_eq h, bits_getElem? he]
  rfl

theorem sameBits_iff (h : bf.WF) (h' : bf'.WF) : SameBits bf bf' ↔ bf.bits = bf'.bits := by
  constructor
  · intro hsame
    refine ext_getElem (by simpa using hsame.1) fun i hi hi' => ?_
    have hlt : i < bf.elements := by simpa using hi
    have hbit := hsame.2 i hlt
    rw [getBit_of_lt h hlt, getBit_of_lt h' (hsame.1 ▸ hlt)] at hbit
    simp only [Bitfield.bits, getElem_map, getElem_range]
    have hinj : ∀ b b' : Bool, (b.toNat : ℤ) = b'.toNat → b = b' := by decide
    exact hinj _ _ (some.inj hbit)
  · intro hbits
    have hlen := congrArg List.length hbits
    rw [length_bits, length_bits] at hlen
    exact ⟨hlen, fun element he => by rw [getBit_eq h, getBit_eq h', hbits]⟩

theorem length_elementsSet (h : bf.WF) : (elementsSet bf).length = bf.bits.count true := by
  rw [elementsSet, Bitfield.bits, count_eq_countP, countP_map, ← countP_eq_length_filter]
  refine countP_congr fun element he => ?_
  rw [getBit_of_lt h (mem_range.mp he), Function.comp_apply]
  cases bf.bitAt element <;> simp

/-- What holds of the comparisons of fields with one number of elements: `bf_equal` says whether all bits agree,
`bf_compare` is a total order on the bits, and nothing else of the fields has an influence. -/
structure Comparable (store : List Bitfield) : Prop where
  equal : ∀ bf1 ∈ store, ∀ bf2 ∈ store, bf1.elements = bf2.elements →
    ∃ equal, bfEqual bf1 bf2 = some equal ∧ (equal = true ↔ SameBits bf1 bf2)
  zero : ∀ bf1 ∈ store, ∀ bf2 ∈ store, bf1.elements = bf2.elements →
    (bfCompare bf1 bf2 = some 0 ↔ bfEqual bf1 bf2 = some true)
  total : ∀ bf1 ∈ store, ∀ bf2 ∈ store, bf1.elements = bf2.elements →
    ∃ c, bfCompare bf1 bf2 = some c ∧ bfCompare bf2 bf1 = some (-c)
  trans : ∀ bf1 ∈ store, ∀ bf2 ∈ store, ∀ bf3 ∈ store, bf1.elements = bf2.elements → bf2.elements = bf3.elements →
    ∀ c ≤ 0, ∀ d ≤ 0, bfCompare bf1 bf2 = some c → bfCompare bf2 bf3 = some d → ∃ e ≤ 0, bfCompare bf1 bf3 = some e
  padding : ∀ bf1 ∈ store, ∀ bf1' ∈ store, ∀ bf2 ∈ store, ∀ bf2' ∈ store, SameBits bf1 bf1' → SameBits bf2 bf2' →
    nrBitsSet bf1 = nrBitsSet bf1' ∧ bfEqual bf1 bf2 = bfEqual bf1' bf2' ∧ bfCompare bf1 bf2 = bfCompare bf1' bf2'

theorem comparable_of_wf (h : StoreWF store) : Comparable store where
  equal := by
    intro bf1 hbf1 bf2 hbf2 hsize
    refine ⟨_, bfEqual_eq (h bf1 hbf1) (h bf2 hbf2) hsize, ?_⟩
    rw [decide_eq_true_iff, sameBits_iff (h bf1 hbf1) (h bf2 hbf2)]
  zero := by
    intro bf1 hbf1 bf2 hbf2 hsize
    rw [bfCompare_eq (h bf1 hbf1) (h bf2 hbf2) hsize, bfEqual_eq (h bf1 hbf1) (h bf2 hbf2) hsize, some_inj,
      some_inj, decide_eq_true_iff]
    exact compareBits_eq_zero_iff (by simpa using hsize)
  total := by
    intro bf1 hbf1 bf2 hbf2 hsize
    refine ⟨_, bfCompare_eq (h bf1 hbf1) (h bf2 hbf2) hsize, ?_⟩
    rw [bfCompare_eq (h bf2 hbf2) (h bf1 hbf1) hsize.symm, compareBits_swap]
  trans := by
    intro bf1 hbf1 bf2 hbf2 bf3 hbf3 hsize hsize' c hc d hd hcompare hcompare'
    rw [bfCompare_eq (h bf1 hbf1) (h bf2 hbf2) hsize, some_inj] at hcompare
    rw [bfCompare_eq (h bf2 hbf2) (h bf3 hbf3) hsize', some_inj] at hcompare'
    refine ⟨_, ?_, bfCompare_eq (h bf1 hbf1) (h bf3 hbf3) (hsize.trans hsize')⟩
    exact compareBits_consistent.le_trans (hcompare ▸ hc) (hcompare' ▸ hd)
  padding := by
    intro bf1 hbf1 bf1' hbf1' bf2 hbf2 bf2' hbf2' hsame1 hsame2
    have hbits1 := (sameBits_iff (h bf1 hbf1) (h bf1' hbf1')).mp hsame1
    have hbits2 := (sameBits_iff (h bf2 hbf2) (h bf2' hbf2')).mp hsame2
    refine ⟨?_, ?_, ?_⟩
    · rw [nrBitsSet, nrBitsSet, (h bf1 hbf1).count_eq, (h bf1' hbf1').count_eq, hbits1]
    · by_cases hsize : bf1.elements = bf2.elements
      · rw [bfEqual_eq (h bf1 hbf1) (h bf2 hbf2) hsize, bfEqual_eq (h bf1' hbf1') (h bf2' hbf2')
          (hsame1.1.symm.trans (hsize.trans hsame2.1)), hbits1, hbits2]
      · rw [bfEqual, bfEqual, if_neg fun h => hsize h.1,
          if_neg fun h => hsize (hsame1.1.trans (h.1.trans hsame2.1.symm))]
    · by_cases hsize : bf1.elements = bf2.elements
      · rw [bfCompare_eq (h bf1 hbf1) (h bf2 hbf2) hsize, bfCompare_eq (h bf1' hbf1') (h bf2' hbf2')
          (hsame1.1.symm.trans (hsize.trans hsame2.1)), hbits1, hbits2]
      · rw [bfCompare, bfCompare, if_neg fun h => hsize h.1,
          if_neg fun h => hsize (hsame1.1.trans (h.1.trans hsame2.1.symm))]

theorem bitfields_keep_count (calls : List Call) : ∃ store,
    run [] calls = some ((bitRun [] calls).1, store) ∧ store.map Bitfield.bits = (bitRun [] calls).2 ∧
    (∀ bf ∈ store, nrBitsSet bf = (elementsSet bf).length) ∧ Comparable store := by
  have hempty : StoreWF [] := fun bf hbf => absurd hbf not_mem_nil
  obtain ⟨store, hrun, hwf, hbits⟩ := run_refines hempty calls
  refine ⟨store, hrun, hbits, fun bf hbf => ?_, comparable_of_wf hwf⟩
  rw [nrBitsSet, (hwf bf hbf).count_eq, length_elementsSet (hwf bf hbf)]

end CWB.Bitfields
