import CWB.Library.Bits
import CWB.Spec.BitIO

/-! What the bit files and streams do to bit strings: every write appends its bits,
a flush pads with zeros to the next byte, and a stream that was moved to a byte
offset reads the bits behind that offset one by one. -/

namespace CWB

open Nat Option List Bits

/-- The bits written so far, those still in the buffer included. -/
def BFile.bits (f : BFile) : List Bool := bytesBits f.fd ++ natBits f.bitsInBuf f.buf

structure BFile.Ok (f : BFile) : Prop where
  bits_lt : f.bitsInBuf < 8
  position_eq : f.position = f.fd.length

theorem ok_empty : BFile.Ok {} := ⟨by decide, rfl⟩

theorem natBits_put {k : ℕ} (hk : k < 8) (buf : ℕ) (b : Bool) :
    natBits (k + 1) (2 * buf % 256 + b.toNat) = natBits k buf ++ [b] := by
  rw [← natBits_shift]
  refine natBits_congr ?_
  have hd : 2 ^ (k + 1) ∣ 256 := Nat.pow_dvd_pow 2 (show k + 1 ≤ 8 by omega)
  rw [add_mod, mod_mod_of_dvd _ hd, ← add_mod]

variable {f : BFile}

theorem put_bits (hf : f.Ok) (b : Bool) : (f.put b).bits = f.bits ++ [b] := by
  have hbuf := natBits_put hf.bits_lt f.buf b
  unfold BFile.put BFile.bits
  by_cases h : f.bitsInBuf + 1 = 8
  · simp only [h, if_pos, bytesBits_append, bytesBits_cons, bytesBits_nil, append_nil, natBits_zero]
    rw [h] at hbuf
    rw [hbuf, append_assoc]
  · simp only [if_neg h]
    rw [hbuf, append_assoc]

theorem put_ok (hf : f.Ok) (b : Bool) : (f.put b).Ok := by
  have hlt := hf.bits_lt
  have hpos := hf.position_eq
  unfold BFile.put
  by_cases h : f.bitsInBuf + 1 = 8
  · simp only [h, if_pos]
    exact ⟨zero_lt_succ 7, by simp [hpos]⟩
  · simp only [if_neg h]
    exact ⟨by simp only; omega, hpos⟩

theorem bfWrite_ok (hf : f.Ok) (data n : ℕ) : (bfWrite data n f).Ok := by
  induction n generalizing f with
  | zero => exact hf
  | succ n ih => exact ih (put_ok hf _)

theorem bfWrite_bits (hf : f.Ok) (data n : ℕ) :
    (bfWrite data n f).bits = f.bits ++ natBits n data := by
  induction n generalizing f with
  | zero => simp [bfWrite]
  | succ n ih =>
    rw [bfWrite, ih (put_ok hf _), put_bits hf, append_assoc]
    rfl

/-- The full bytes of a word are its low bits, eight at a time. -/
theorem foldl_bytes (hf : f.Ok) (data : ℕ) {bytes m : ℕ} (hb : bytes ≤ 4) (hm : m ≤ bytes) :
    ((range m).foldl (fun f i => bfWrite (wordByte data (4 - bytes + i)) 8 f) f).Ok ∧
    ((range m).foldl (fun f i => bfWrite (wordByte data (4 - bytes + i)) 8 f) f).bits =
      f.bits ++ natBits (8 * m) (data / 2 ^ (8 * (bytes - m))) := by
  induction m with
  | zero => simpa using hf
  | succ m ih =>
    obtain ⟨hok, hbits⟩ := ih (by omega)
    rw [range_succ, foldl_append, foldl_cons, foldl_nil]
    refine ⟨bfWrite_ok hok _ _, ?_⟩
    rw [bfWrite_bits hok, hbits, append_assoc, show 8 * (m + 1) = 8 * m + 8 by omega, natBits_add,
      Nat.div_div_eq_div_mul, ← Nat.pow_add, show 8 * (bytes - (m + 1)) + 8 = 8 * (bytes - m) by omega,
      wordByte, show 3 - (4 - bytes + m) = bytes - (m + 1) by omega]
    rw [natBits_byte]

theorem bfWriteWord_ok (hf : f.Ok) (data nbits : ℕ) : (bfWriteWord data nbits f).Ok := by
  unfold bfWriteWord
  by_cases h : nbits > 32
  · rw [if_pos h]; exact hf
  · rw [if_neg h]
    refine (foldl_bytes ?_ data (by omega) le_rfl).1
    by_cases hr : nbits % 8 ≠ 0
    · rw [if_pos hr]; exact bfWrite_ok hf _ _
    · rw [if_neg hr]; exact hf

theorem bfWriteWord_bits (hf : f.Ok) (data : ℕ) {nbits : ℕ} (h : nbits ≤ 32) :
    (bfWriteWord data nbits f).bits = f.bits ++ natBits nbits data := by
  have hsplit := natBits_add (nbits % 8) (8 * (nbits / 8)) data
  rw [show nbits % 8 + 8 * (nbits / 8) = nbits by omega] at hsplit
  unfold bfWriteWord
  rw [if_neg (by omega), hsplit]
  by_cases hr : nbits % 8 ≠ 0
  · simp only [if_pos hr]
    rw [(foldl_bytes (bfWrite_ok hf _ _) data (by omega) le_rfl).2, bfWrite_bits hf, Nat.sub_self,
      Nat.mul_zero, Nat.pow_zero, Nat.div_one, append_assoc, wordByte,
      show 3 - (3 - nbits / 8) = nbits / 8 by omega]
    congr 2
    exact natBits_congr (mod_mod_of_dvd _ (Nat.pow_dvd_pow 2 (show nbits % 8 ≤ 8 by omega)))
  · simp only [if_neg hr]
    rw [(foldl_bytes hf data (by omega) le_rfl).2, not_not.mp hr]
    simp

theorem bfFlush_ok (hf : f.Ok) : (bfFlush f).Ok := by
  unfold bfFlush
  by_cases h : 0 < f.bitsInBuf ∧ f.bitsInBuf < 8
  · rw [if_pos h]
    exact ⟨zero_lt_succ 7, by simp [hf.position_eq]⟩
  · rw [if_neg h]; exact hf

theorem bfFlush_aligned (hf : f.Ok) : (bfFlush f).bitsInBuf = 0 := by
  have := hf.bits_lt
  unfold bfFlush
  by_cases h : 0 < f.bitsInBuf ∧ f.bitsInBuf < 8
  · rw [if_pos h]
  · rw [if_neg h]; omega

theorem bfFlush_bits (f : BFile) :
    ∃ k, (bfFlush f).bits = f.bits ++ replicate k false := by
  unfold bfFlush BFile.bits
  by_cases h : 0 < f.bitsInBuf ∧ f.bitsInBuf < 8
  · refine ⟨8 - f.bitsInBuf, ?_⟩
    rw [if_pos h]
    have := natBits_two_pow_mul f.bitsInBuf (8 - f.bitsInBuf) f.buf
    rw [show f.bitsInBuf + (8 - f.bitsInBuf) = 8 by omega] at this
    simp only [bytesBits_append, bytesBits_cons, bytesBits_nil, append_nil, natBits_zero]
    rw [natBits_byte, this, append_assoc]
  · exact ⟨0, by rw [if_neg h]; simp⟩

theorem bits_length_of_aligned (hf : f.Ok) (h : f.bitsInBuf = 0) :
    f.bits.length = 8 * bfPosition f := by
  rw [BFile.bits, h, natBits_zero, append_nil, bytesBits_length, bfPosition, hf.position_eq]

theorem bytesBits_fd_of_aligned (h : f.bitsInBuf = 0) : bytesBits f.fd = f.bits := by
  rw [BFile.bits, h, natBits_zero, append_nil]

/-- The stream reads `base` and stands before the bits `bits`. -/
structure BStream.At (s : BStream) (base : List ℕ) (bits : List Bool) : Prop where
  base_eq : s.base = base
  bits_le : s.bitsInBuf ≤ 8
  rest_eq : (natBits 8 s.buf).take s.bitsInBuf ++ bytesBits (base.drop s.position) = bits

theorem bsSeek_at (base : List ℕ) (offset : ℕ) :
    (bsSeek (bsOpen base) offset).At base ((bytesBits base).drop (8 * offset)) :=
  ⟨rfl, Nat.zero_le _, by rw [← bytesBits_drop]; rfl⟩

variable {s : BStream} {bits : List Bool}

theorem fill_at {base : List ℕ} {b : Bool} (h : s.At base (b :: bits)) :
    ∃ s', s.fill = some s' ∧ s'.At base (b :: bits) ∧ 0 < s'.bitsInBuf := by
  obtain ⟨hbase, hle, hrest⟩ := h
  unfold BStream.fill
  by_cases h0 : s.bitsInBuf = 0
  · rw [if_pos h0, hbase]
    rw [h0, take_zero, nil_append] at hrest
    rcases hd : base.drop s.position with _ | ⟨byte, tail⟩
    · rw [hd] at hrest; simp at hrest
    · have hget : base[s.position]? = some byte := by
        have := congrArg (fun l => l[0]?) hd
        simpa using this
      refine ⟨{ s with base, buf := byte, position := s.position + 1, bitsInBuf := 8 }, ?_, ?_, zero_lt_succ 7⟩
      · rw [hget, map_some, ← hbase]
      · refine ⟨rfl, le_rfl, ?_⟩
        rw [← hrest, hd, ← tail_drop, hd, bytesBits_cons, take_of_length_le (by simp)]
        rfl
  · rw [if_neg h0]
    exact ⟨s, rfl, ⟨hbase, hle, hrest⟩, Nat.pos_of_ne_zero h0⟩

theorem get_at {base : List ℕ} {b : Bool} (h : s.At base (b :: bits)) :
    ∃ s', s.get = some (b, s') ∧ s'.At base bits := by
  obtain ⟨s1, hfill, ⟨hbase, hle, hrest⟩, hpos⟩ := fill_at h
  obtain ⟨j, hj⟩ : ∃ j, s1.bitsInBuf = j + 1 := ⟨s1.bitsInBuf - 1, by omega⟩
  rw [hj, natBits_succ 7, take_succ_cons, cons_append, List.cons.injEq] at hrest
  refine ⟨{ s1 with buf := 2 * s1.buf % 256, bitsInBuf := s1.bitsInBuf - 1 }, ?_, hbase, ?_, ?_⟩
  · rw [BStream.get, hfill, map_some, hrest.1]
  · simp only; omega
  · simp only [hj, Nat.add_sub_cancel]
    rw [natBits_byte, natBits_take_shift s1.buf j (show j ≤ 7 by omega), natBits_succ 7,
      take_succ_cons, drop_one, tail_cons]
    exact hrest.2

theorem bsRead_one {base : List ℕ} {b : Bool} (h : s.At base (b :: bits)) :
    ∃ s', bsRead 1 s = some (b.toNat, s') ∧ s'.At base bits := by
  obtain ⟨s', hget, hat⟩ := get_at h
  refine ⟨s', ?_, hat⟩
  simp [bsRead, bsReadLoop, hget]

/-- The stream stands before the bits of `data` behind the first `n`. -/
structure BStream.HasRead (data : List ℕ) (n : ℕ) (s : BStream) : Prop where
  stands : s.At data ((bytesBits data).drop n)
  read_eq : 8 * s.position = n + s.bitsInBuf

/-- What stands before a later rest of the data has read the bits up to it. -/
theorem hasRead_of_at {data : List ℕ} {tl : List Bool} {n : ℕ}
    (hbits : (bytesBits data).drop n = bits ++ tl) (h : s.At data tl) (hn : n + bits.length ≤ 8 * data.length)
    (hpos : s.position ≤ data.length) : s.HasRead data (n + bits.length) := by
  have htl : (bytesBits data).drop (n + bits.length) = tl := by
    rw [← drop_drop, hbits, drop_left]
  have hle := h.bits_le
  have hlen := congrArg List.length h.rest_eq
  rw [← htl, length_append, length_take, natBits_length, bytesBits_length, length_drop, length_drop,
    bytesBits_length, Nat.min_eq_left hle] at hlen
  refine ⟨htl ▸ h, ?_⟩
  omega

/-- A stream that has read no more than there is stands inside its data. -/
theorem BStream.HasRead.position_le {data : List ℕ} {n : ℕ} (h : s.HasRead data n)
    (hn : n ≤ 8 * data.length) : s.position ≤ data.length := by
  have hread := h.read_eq
  have hle := h.stands.bits_le
  have hlen := congrArg List.length h.stands.rest_eq
  rw [length_append, length_take, natBits_length, bytesBits_length, length_drop, length_drop,
    bytesBits_length, Nat.min_eq_left hle] at hlen
  omega

/-- A file that is read beside a stream over the same bytes, both at the same bit. -/
structure Beside (f : BFileReader) (s : BStream) : Prop where
  fd_eq : f.fd = s.base.drop s.position
  buf_eq : f.buf = s.buf
  bits_eq : f.bitsInBuf = s.bitsInBuf
  position_eq : f.position = s.position
  position_le : s.position ≤ s.base.length

theorem Beside.fill {f : BFileReader} {s' : BStream} (h : Beside f s) (hfill : s.fill = some s') :
    ∃ f', f.fill = some f' ∧ Beside f' s' ∧ s'.base = s.base := by
  unfold BStream.fill at hfill
  unfold BFileReader.fill
  rw [h.bits_eq]
  by_cases h0 : s.bitsInBuf = 0
  · rw [if_pos h0] at hfill ⊢
    obtain ⟨byte, hbyte, rfl⟩ := map_eq_some_iff.mp hfill
    obtain ⟨hlt, hget⟩ := List.getElem?_eq_some_iff.mp hbyte
    rw [h.fd_eq, drop_eq_getElem_cons hlt, hget]
    exact ⟨_, rfl, ⟨rfl, rfl, rfl, by rw [h.position_eq], hlt⟩, rfl⟩
  · rw [if_neg h0] at hfill ⊢
    cases hfill
    exact ⟨f, rfl, h, rfl⟩

/-- The reader of a file with the bytes `data` has read the first `n` bits. -/
def BFileReader.HasRead (data : List ℕ) (n : ℕ) (f : BFileReader) : Prop := ∃ s : BStream, s.HasRead data n ∧ Beside f s

/-- The bits that the file still holds. -/
def BFileReader.left (f : BFileReader) : ℕ := 8 * f.fd.length + f.bitsInBuf

theorem left_fill {f f' : BFileReader} (h : f.fill = some f') : f'.left = f.left ∧ 0 < f'.bitsInBuf := by
  unfold BFileReader.fill at h
  by_cases h0 : f.bitsInBuf = 0
  · rw [if_pos h0] at h
    rcases hfd : f.fd with _ | ⟨byte, fd⟩
    · rw [hfd] at h; cases h
    · rw [hfd] at h
      cases h
      simp only [BFileReader.left, hfd, length_cons]
      omega
  · rw [if_neg h0] at h
    cases h
    exact ⟨rfl, Nat.pos_of_ne_zero h0⟩

/-- Where the stream delivers a bit, the file delivers it too, and holds one bit less. -/
theorem Beside.read {f : BFileReader} {s' : BStream} {bit : ℕ} (h : Beside f s) (hread : bsRead 1 s = some (bit, s')) :
    ∃ f', bfRead 1 f = (bit, f') ∧ Beside f' s' ∧ s'.base = s.base ∧ f'.left + 1 = f.left := by
  simp only [bsRead, bsReadLoop, BStream.get, bind_eq_bind, bind_eq_some_iff, map_eq_some_iff] at hread
  obtain ⟨_, ⟨s₁, hfill, rfl⟩, heq⟩ := hread
  obtain ⟨rfl, rfl⟩ := Prod.mk.inj (some.inj heq)
  obtain ⟨f₁, hf₁, hb, hbase⟩ := h.fill hfill
  obtain ⟨hleft, hpos⟩ := left_fill hf₁
  refine ⟨{ f₁ with buf := 2 * f₁.buf % 256, bitsInBuf := f₁.bitsInBuf - 1 }, ?_, ?_, hbase, ?_⟩
  · simp [bfRead, bfReadLoop, hf₁, hb.buf_eq]
  · exact ⟨hb.fd_eq, by simp only [hb.buf_eq], by simp only [hb.bits_eq], hb.position_eq, hb.position_le⟩
  · rw [← hleft]
    simp only [BFileReader.left]
    omega

end CWB
