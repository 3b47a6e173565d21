import Mathlib
import CWB.Spec.AutoString

/-! An AutoString that starts empty is a string as long as the two formulas for sizes fit. -/

namespace CWB.AutoString

open Nat Option List

/-- What the operations keep of an object and the string that it holds. -/
structure Represents (string : AutoString) (s : List Byte) : Prop where
  noZero : 0 ∉ s
  length_lt : s.length < 2 ^ 62
  content : Block.ofString s <+: string.data
  len_eq : string.len = s.length
  room : s.length + 1 ≤ string.bytesAllocated
  block : string.data.length = string.bytesAllocated
  increment_pos : 0 < string.increment

variable {heap : ℕ → Byte} {string string' : AutoString} {s : List Byte}

theorem intOf_eq {n : ℕ} (h : n < 2 ^ 31) : intOf n = n := Block.toInt_count h

theorem intOf_range (n : ℕ) : -2 ^ 31 ≤ intOf n ∧ intOf n < 2 ^ 31 := by
  have hlo := BitVec.le_toInt (BitVec.ofNat 32 n)
  have hhi := BitVec.toInt_lt (x := BitVec.ofNat 32 n)
  unfold intOf
  omega

theorem sizeOf_eq (n : ℤ) : (sizeOf n : ℤ) = n % 2 ^ 64 := by
  rw [sizeOf, BitVec.toNat_ofInt]
  exact Int.toNat_of_nonneg (Int.emod_nonneg n (by norm_num))

theorem sizeOf_natCast {n : ℕ} (h : n < 2 ^ 64) : sizeOf n = n := by
  have := sizeOf_eq n
  omega

theorem Represents.isString (h : string.Represents s) : string.IsString s where
  content := Block.scanString_of_prefix h.noZero h.content
  len_eq := h.len_eq
  room := by
    rw [h.len_eq]
    exact h.room

/-! ## What one call does -/

theorem clAutostringNew_none (heap : ℕ → Byte) (initBytes : ℕ) :
    ∃ string, clAutostringNew heap none initBytes = some string ∧ string.Represents [] := by
  obtain ⟨n, hn, hpos⟩ : ∃ n, (if 1 > initBytes then CL_MAX_LINE_LENGTH else initBytes) = n ∧ 0 < n := by
    refine ⟨_, rfl, ?_⟩
    split_ifs with h
    · exact succ_pos _
    · omega
  have hroom : 0 + (Block.ofString []).length ≤ (Block.malloc heap n).length := by
    rw [Block.length_malloc, Block.length_ofString]
    exact hpos
  have hstore := Block.store_of_le hroom
  refine ⟨⟨_, n, 0, n⟩, ?_, not_mem_nil, by norm_num, Block.isPrefix_of_store hstore, rfl, hpos, ?_, hpos⟩
  · simp only [clAutostringNew, hn, hstore]
    rfl
  · exact (Block.length_of_store hstore).trans (Block.length_malloc heap n)

/-- An initial string is counted with its terminator. -/
theorem clAutostringNew_some {data : Block.Str} {initBytes : ℕ} (h : clAutostringNew heap (some data) initBytes = some string) :
    string.len ≠ data.chars.length := by
  obtain ⟨field, -, rfl⟩ := map_eq_some_iff.mp h
  have hsize := sizeOf_eq (intOf (1 + data.chars.length))
  have hint : intOf (1 + data.chars.length) % 2 ^ 32 = (1 + data.chars.length : ℕ) % 2 ^ 32 := by
    rw [intOf, BitVec.toInt_eq_toNat_bmod, BitVec.toNat_ofNat]
    have hbmod := @Int.bmod_emod ((1 + data.chars.length) % 2 ^ 32 : ℕ) (2 ^ 32)
    push_cast at hbmod ⊢
    rw [hbmod, Int.emod_emod]
  dsimp only
  omega

/-- There is room after the growth, and the string is still there. -/
theorem Represents.grow (heap : ℕ → Byte) (h : string.Represents s) (bytesNeeded : ℕ) : (string.grow heap bytesNeeded).Represents s ∧
    bytesNeeded ≤ (string.grow heap bytesNeeded).bytesAllocated := by
  unfold AutoString.grow
  by_cases hroom : bytesNeeded > string.bytesAllocated
  · rw [if_pos hroom]
    have hlt : bytesNeeded < string.increment * (1 + bytesNeeded / string.increment) := by
      rw [Nat.add_comm 1]
      exact lt_mul_div_succ bytesNeeded h.increment_pos
    have hle := h.room
    refine ⟨⟨h.noZero, h.length_lt, ?_, h.len_eq, ?_, ?_, h.increment_pos⟩, hlt.le⟩
    · apply Block.isPrefix_realloc h.content
      rw [Block.length_ofString]
      omega
    · dsimp only
      omega
    · exact Block.length_realloc heap string.data _
  · rw [if_neg hroom]
    exact ⟨h, not_lt.mp hroom⟩

/-- A string is written to the beginning of a block with room for it. -/
theorem Represents.overwrite (h : string.Represents s) (src : Block.Str) (hroom : src.chars.length + 1 ≤ string.bytesAllocated) :
    ∃ field, string.data.store 0 (Block.ofString src.chars) = some field ∧
      Represents { string with data := field, len := src.chars.length } src.chars := by
  have hfield : 0 + (Block.ofString src.chars).length ≤ string.data.length := by
    rw [Block.length_ofString, h.block]
    omega
  have hstore := Block.store_of_le hfield
  refine ⟨_, hstore, src.noZero, src.length_lt, Block.isPrefix_of_store hstore, rfl, hroom, ?_, h.increment_pos⟩
  exact (Block.length_of_store hstore).trans h.block

theorem Represents.clear (heap : ℕ → Byte) (h : string.Represents s) : ∃ string', string.clAutostringCopy heap none = some string' ∧
    string'.Represents [] := by
  obtain ⟨field, hstore, hnil⟩ := h.overwrite ⟨[], not_mem_nil, by norm_num⟩ (by have := h.room; simp only [length_nil]; omega)
  exact ⟨_, by rw [clAutostringCopy, hstore]; rfl, hnil⟩

theorem Represents.copy (h : string.Represents s) (src : Block.Str) :
    ∃ string', string.clAutostringCopy heap (some src) = some string' ∧ string'.Represents src.chars := by
  obtain ⟨hgrown, hroom⟩ := h.grow heap (1 + src.chars.length)
  obtain ⟨field, hstore, hcopied⟩ := hgrown.overwrite src (by omega)
  refine ⟨_, by simp only [clAutostringCopy, hstore]; rfl, ?_⟩
  rw [Nat.add_sub_cancel_left]
  exact hcopied

theorem Represents.concat (h : string.Represents s) (src : Block.Str) (hfits : string.len + src.chars.length + 1 < 2 ^ 31) :
    ∃ string', string.clAutostringConcat heap (some src) = some string' ∧ string'.Represents (s ++ src.chars) := by
  have hlen := h.len_eq
  have hneeded : sizeOf (intOf (string.len + src.chars.length + 1)) = s.length + src.chars.length + 1 := by
    rw [intOf_eq hfits, sizeOf_natCast (by omega), hlen]
  have hafter : sizeOf (intOf (string.len + src.chars.length + 1) - 1) = s.length + src.chars.length := by
    rw [intOf_eq hfits, cast_succ, add_sub_cancel_right, sizeOf_natCast (by omega), hlen]
  obtain ⟨hgrown, hroom⟩ := h.grow heap (s.length + src.chars.length + 1)
  generalize hdst : string.grow heap (s.length + src.chars.length + 1) = dst at hgrown hroom
  -- the terminator of the old string is where the new one begins
  have hold : s <+: dst.data := (prefix_append s [0]).trans hgrown.content
  have hfield : s.length + (Block.ofString src.chars).length ≤ dst.data.length := by
    rw [Block.length_ofString, hgrown.block]
    omega
  have hstore := Block.store_of_le hfield
  refine ⟨_, by simp only [clAutostringConcat, hneeded, hdst, hafter, hgrown.len_eq, hstore]; rfl, ?_, ?_, ?_, ?_, ?_, ?_, ?_⟩
  · exact fun h0 => (mem_append.mp h0).elim h.noZero src.noZero
  · rw [length_append]
    omega
  · rw [Block.ofString, append_assoc]
    exact Block.isPrefix_of_store_end hold hstore
  · exact length_append.symm
  · rw [length_append]
    exact hroom
  · exact (Block.length_of_store hstore).trans hgrown.block
  · exact hgrown.increment_pos

theorem Represents.truncate (h : string.Represents s) (newLength : BitVec 32) :
    ∃ string', string.clAutostringTruncate newLength = some string' ∧ string'.Represents (plainCall s (.truncate newLength)) := by
  have hlen := h.len_eq
  have hlt := h.length_lt
  have hlo := BitVec.le_toInt newLength
  have hhi := BitVec.toInt_lt (x := newLength)
  have hsize := sizeOf_eq newLength.toInt
  simp only [plainCall, clAutostringTruncate]
  -- a negative length is larger than any length once it is a `size_t`
  by_cases hneg : 0 ≤ newLength.toInt
  · rw [if_pos hneg]
    have hnat : sizeOf newLength.toInt = newLength.toInt.toNat := by omega
    rw [hnat]
    by_cases hlong : newLength.toInt.toNat > string.len
    · rw [if_pos hlong, take_of_length_le (by omega)]
      exact ⟨string, rfl, h⟩
    · rw [if_neg hlong]
      have htake : (s.take newLength.toInt.toNat).length = newLength.toInt.toNat := by
        rw [length_take]
        omega
      have hold : s.take newLength.toInt.toNat <+: string.data :=
        (List.take_prefix _ s).trans ((prefix_append s [0]).trans h.content)
      have hroom := h.room
      obtain ⟨field, hstore⟩ : ∃ field, string.data.store newLength.toInt.toNat [0] = some field :=
        ⟨_, Block.store_of_le (by rw [length_singleton, h.block]; omega)⟩
      refine ⟨⟨field, string.bytesAllocated, newLength.toInt.toNat, string.increment⟩, by simp only [hstore]; rfl, fun h0 => h.noZero (mem_of_mem_take h0), ?_, ?_, htake.symm, ?_, ?_, h.increment_pos⟩
      · rw [htake]
        omega
      · rw [← htake] at hstore
        exact Block.isPrefix_of_store_end hold hstore
      · rw [htake]
        dsimp only
        omega
      · exact (Block.length_of_store hstore).trans h.block
  · rw [if_neg hneg, if_pos (by omega)]
    exact ⟨string, rfl, h⟩

/-- The step lemma: where the sizes fit, a call does what it does on plain strings. -/
theorem Represents.call (heap : ℕ → Byte) (h : string.Represents s) (c : Call) (hfits : string.Fits c) :
    ∃ string', string.call heap c = some string' ∧ string'.Represents (plainCall s c) := by
  cases c with
  | setIncrement newIncrement =>
    exact ⟨_, rfl, h.noZero, h.length_lt, h.content, h.len_eq, h.room, h.block, newIncrement.pos⟩
  | reclaimMem =>
    have hlen := h.len_eq
    have hle : string.len ≤ (string.len + 1) / string.increment := hfits
    refine ⟨_, rfl, h.noZero, h.length_lt, ?_, h.len_eq, ?_, Block.length_realloc heap string.data _, h.increment_pos⟩
    · apply Block.isPrefix_realloc h.content
      rw [Block.length_ofString]
      omega
    · change s.length + 1 ≤ 1 + (string.len + 1) / string.increment
      omega
  | copy src =>
    cases src with
    | none => exact h.clear heap
    | some src => exact h.copy src
  | concat src =>
    cases src with
    | none =>
      refine ⟨string, rfl, ?_⟩
      rw [show plainCall s (.concat none) = s from append_nil s]
      exact h
    | some src => exact h.concat src hfits
  | truncate newLength => exact h.truncate newLength

/-- Where they do not fit, the object is not the string afterwards. -/
theorem Represents.fits (h : string.Represents s) (c : Call) (hcall : string.call heap c = some string')
    (hstring : string'.IsString (plainCall s c)) : string.Fits c := by
  have hlen := h.len_eq
  have hlt := h.length_lt
  cases c with
  | setIncrement newIncrement => trivial
  | reclaimMem =>
    obtain rfl := some.inj hcall
    have hroom := hstring.room
    simp only [clAutostringReclaimMem] at hroom
    unfold Fits
    omega
  | copy src => trivial
  | concat src =>
    cases src with
    | none => trivial
    | some src =>
      obtain ⟨field, -, rfl⟩ := map_eq_some_iff.mp hcall
      have hsrc := src.length_lt
      have hlen' : sizeOf (intOf (string.len + src.chars.length + 1) - 1) = (s ++ src.chars).length := hstring.len_eq
      have hsize := sizeOf_eq (intOf (string.len + src.chars.length + 1) - 1)
      have hrange := intOf_range (string.len + src.chars.length + 1)
      rw [length_append] at hlen'
      unfold Fits
      omega
  | truncate newLength => trivial

/-! ## Runs -/

/-- The object is the string after each of the calls. -/
def StaysString (heap : ℕ → Byte) (data : Option Block.Str) (initBytes : ℕ) (calls : List Call) : Prop :=
  ∀ k, ∃ string, run heap data initBytes (calls.take k) = some string ∧ string.IsString (plainRun data (calls.take k))

/-- Each call fits the object that it finds. -/
def CallsFit (heap : ℕ → Byte) (data : Option Block.Str) (initBytes : ℕ) (calls : List Call) : Prop :=
  ∀ k c string, calls[k]? = some c → run heap data initBytes (calls.take k) = some string → string.Fits c

variable {data : Option Block.Str} {initBytes : ℕ} {calls : List Call}

theorem run_snoc (c : Call) : run heap data initBytes (calls ++ [c]) = (run heap data initBytes calls).bind fun string => string.call heap c := by
  unfold run
  simp only [foldlM_append, foldlM_cons, foldlM_nil, bind_eq_bind, bind_assoc]
  congr 1
  funext string
  congr 1
  funext string'
  exact bind_pure (string'.call heap c)

theorem plainRun_snoc (c : Call) : plainRun data (calls ++ [c]) = plainCall (plainRun data calls) c := by
  rw [plainRun, foldl_append]
  rfl

theorem StaysString.data_eq (h : StaysString heap data initBytes calls) : data = none := by
  obtain ⟨string, hrun, hstring⟩ := h 0
  cases data with
  | none => rfl
  | some data =>
    rw [take_zero, run, bind_eq_bind, bind_eq_some_iff] at hrun
    obtain ⟨string', hnew, hsame⟩ := hrun
    obtain rfl := some.inj hsame
    exact absurd hstring.len_eq (clAutostringNew_some hnew)

/-- The run lemma, for the part of a run in which all calls fit. -/
theorem run_represents (heap : ℕ → Byte) (initBytes : ℕ) (calls : List Call) (k : ℕ)
    (h : ∀ j c string s, j < k → calls[j]? = some c → run heap none initBytes (calls.take j) = some string → string.Represents s →
      s = plainRun none (calls.take j) → string.Fits c) :
    ∃ string, run heap none initBytes (calls.take k) = some string ∧ string.Represents (plainRun none (calls.take k)) := by
  induction k with
  | zero =>
    obtain ⟨string, hnew, hempty⟩ := clAutostringNew_none heap initBytes
    refine ⟨string, ?_, hempty⟩
    rw [take_zero, run, hnew]
    rfl
  | succ k ih =>
    obtain ⟨string, hrun, hrep⟩ := ih fun j c string s hj => h j c string s (lt_succ_of_lt hj)
    rw [take_add_one]
    cases hget : calls[k]? with
    | none =>
      rw [toList_none, append_nil]
      exact ⟨string, hrun, hrep⟩
    | some c =>
      obtain ⟨string', hcall, hrep'⟩ := hrep.call heap c (h k c string _ (lt_succ_self k) hget hrun hrep rfl)
      refine ⟨string', ?_, ?_⟩
      · rw [toList_some, run_snoc, hrun, bind_some, hcall]
      · rw [toList_some, plainRun_snoc]
        exact hrep'

/-- An AutoString is a string after each call of a run exactly if it started without an initial string and the sizes
fit in every call. -/
theorem autostring_isString_iff (heap : ℕ → Byte) (data : Option Block.Str) (initBytes : ℕ) (calls : List Call) :
    StaysString heap data initBytes calls ↔ data = none ∧ CallsFit heap data initBytes calls := by
  constructor
  · intro h
    obtain rfl := h.data_eq
    refine ⟨rfl, ?_⟩
    intro k
    induction k using Nat.strong_induction_on with
    | _ k ih =>
      intro c string hget hrun
      obtain ⟨string₁, hrun₁, hrep⟩ := run_represents heap initBytes calls k fun j c string s hj hget hrun _ _ => ih j hj c string hget hrun
      obtain rfl := some.inj (hrun.symm.trans hrun₁)
      obtain ⟨string', hrun', hstring⟩ := h (k + 1)
      rw [take_add_one, hget, toList_some] at hrun' hstring
      rw [run_snoc, hrun, bind_some] at hrun'
      rw [plainRun_snoc] at hstring
      exact hrep.fits c hrun' hstring
  · intro h
    obtain ⟨rfl, hfit⟩ := h
    intro k
    obtain ⟨string, hrun, hrep⟩ := run_represents heap initBytes calls k
      fun j c string s _ hget hrun _ _ => hfit j c string hget hrun
    exact ⟨string, hrun, hrep.isString⟩

theorem noZero_abc : (0 : Byte) ∉ [97, 98, 99] := by decide

/-- A new AutoString with an initial string counts its terminator. -/
theorem new_counts_terminator : ¬∀ (heap : ℕ → Byte) (data : Option Block.Str) (initBytes : ℕ) (calls : List Call),
    StaysString heap data initBytes calls := by
  intro h
  have hnone := (h (fun _ => 0) (some ⟨[97, 98, 99], noZero_abc, by norm_num⟩) 8 []).data_eq
  exact some_ne_none _ hnone

end CWB.AutoString
