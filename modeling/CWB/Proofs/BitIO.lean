import Mathlib
import CWB.Sanity.BitIO
import CWB.Spec.BitCalls

/-! What is written to a bit file is read from it with the same calls. A flush stands for a padding in the file; the
readers skip it because they load the next byte. -/

namespace CWB

open Option List Bits

/-! ## The bits of a sequence of calls -/

/-- The padding of a flush behind `n` bits. -/
def padding (n : ℕ) : ℕ := (8 - n % 8) % 8

namespace BitCall

def bits : BitCall → List Bool
  | .write data nbits => natBits nbits data.toNat
  | .writeWord data nbits => natBits nbits data.toNat
  | .flush => []

/-- The bits that follow `n` bits in the file, up to its end. -/
def fileBits : ℕ → List BitCall → List Bool
  | n, [] => replicate (padding n) false
  | n, .flush :: calls => replicate (padding n) false ++ fileBits (n + padding n) calls
  | n, c :: calls => c.bits ++ fileBits (n + c.width) calls

@[simp] theorem length_bits (c : BitCall) : c.bits.length = c.width := by
  cases c with
  | write data nbits => exact natBits_length _ _
  | writeWord data nbits => exact natBits_length _ _
  | flush => rfl

end BitCall

/-! ## The writer -/

theorem BFile.length_bits (f : BFile) : f.bits.length = 8 * f.fd.length + f.bitsInBuf := by
  rw [BFile.bits, length_append, bytesBits_length, natBits_length]

theorem bfFlush_padding {f : BFile} (hf : f.Ok) : (bfFlush f).bits = f.bits ++ replicate (padding f.bits.length) false := by
  have hlt := hf.bits_lt
  have hpad : padding f.bits.length = (8 - f.bitsInBuf) % 8 := by
    rw [f.length_bits, padding]
    omega
  rw [hpad]
  unfold bfFlush BFile.bits
  by_cases h : 0 < f.bitsInBuf ∧ f.bitsInBuf < 8
  · have hshift := natBits_two_pow_mul f.bitsInBuf (8 - f.bitsInBuf) f.buf
    rw [show f.bitsInBuf + (8 - f.bitsInBuf) = 8 by omega] at hshift
    rw [if_pos h, Nat.mod_eq_of_lt (by omega : 8 - f.bitsInBuf < 8)]
    simp only [bytesBits_append, bytesBits_cons, bytesBits_nil, append_nil, natBits_zero]
    rw [natBits_byte, hshift, append_assoc]
  · have h0 : f.bitsInBuf = 0 := by omega
    rw [if_neg h, h0]
    simp

theorem writeTo_ok {f : BFile} (hf : f.Ok) (c : BitCall) : (BitCall.writeTo f c).Ok := by
  cases c with
  | write data nbits => exact bfWrite_ok hf _ _
  | writeWord data nbits => exact bfWriteWord_ok hf _ _
  | flush => exact bfFlush_ok hf

variable {c : BitCall}

theorem writeTo_bits {f : BFile} (hf : f.Ok) (hc : c ≠ .flush) : (BitCall.writeTo f c).bits = f.bits ++ c.bits := by
  cases c with
  | write data nbits => exact bfWrite_bits hf _ _
  | writeWord data nbits => exact bfWriteWord_bits hf _ (Nat.lt_succ_iff.mp nbits.isLt)
  | flush => exact absurd rfl hc

theorem BitCall.fileBits_cons (hc : c ≠ .flush) (n : ℕ) (calls : List BitCall) :
    BitCall.fileBits n (c :: calls) = c.bits ++ BitCall.fileBits (n + c.width) calls := by
  cases c with
  | write data nbits => rfl
  | writeWord data nbits => rfl
  | flush => exact absurd rfl hc

theorem foldl_writeTo {f : BFile} (hf : f.Ok) (calls : List BitCall) :
    (calls.foldl BitCall.writeTo f).Ok ∧
      (bfFlush (calls.foldl BitCall.writeTo f)).bits = f.bits ++ BitCall.fileBits f.bits.length calls := by
  induction calls generalizing f with
  | nil => exact ⟨hf, bfFlush_padding hf⟩
  | cons c calls ih =>
    obtain ⟨hok, hbits⟩ := ih (writeTo_ok hf c)
    refine ⟨hok, ?_⟩
    rw [foldl_cons, hbits]
    by_cases hc : c = .flush
    · subst hc
      rw [show BitCall.writeTo f .flush = bfFlush f from rfl, bfFlush_padding hf, length_append, length_replicate,
        append_assoc]
      rfl
    · rw [writeTo_bits hf hc, length_append, BitCall.length_bits, append_assoc, BitCall.fileBits_cons hc]

theorem written_bits (calls : List BitCall) : bytesBits (BitCall.written calls) = BitCall.fileBits 0 calls := by
  obtain ⟨hok, hbits⟩ := foldl_writeTo ok_empty calls
  rw [BitCall.written, bytesBits_fd_of_aligned (bfFlush_aligned hok), hbits]
  rfl

/-! ## The stream -/

variable {base data : List ℕ} {bits tl : List Bool} {s s' : BStream} {f : BFileReader} {n : ℕ} {fresh : Bool}

theorem shiftIn_append (v : ℕ) (bs cs : List Bool) : shiftIn v (bs ++ cs) = shiftIn (shiftIn v bs) cs := foldl_append

theorem shiftIn_eq (v : ℕ) (bs : List Bool) : shiftIn v bs = v * 2 ^ bs.length + shiftIn 0 bs := by
  induction bs generalizing v with
  | nil => simp
  | cons b bs ih =>
    rw [shiftIn_cons, shiftIn_cons, ih, ih (2 * 0 + b.toNat), length_cons, Nat.pow_succ]
    ring

/-- The stream stands behind `n` bits, before `bits`; with `fresh` it has loaded a byte and read no bit of it. -/
structure BStream.Stands (s : BStream) (base : List ℕ) (bits : List Bool) (n : ℕ) (fresh : Bool) : Prop where
  stands : s.At base bits
  read_eq : 8 * s.position = n + s.bitsInBuf
  fresh_iff : s.bitsInBuf = 8 ↔ fresh = true

theorem get_stands {b : Bool} (h : s.Stands base (b :: bits) n fresh) :
    ∃ s', s.get = some (b, s') ∧ s'.Stands base bits (n + 1) false := by
  obtain ⟨s', hget, hat⟩ := get_at h.stands
  have hle := h.stands.bits_le
  have hread := h.read_eq
  have hcount : 8 * s'.position = n + 1 + s'.bitsInBuf ∧ s'.bitsInBuf < 8 := by
    obtain ⟨s₁, hfill, heq⟩ := map_eq_some_iff.mp hget
    obtain ⟨-, rfl⟩ := Prod.mk.inj heq
    unfold BStream.fill at hfill
    split_ifs at hfill with h0
    · obtain ⟨byte, -, rfl⟩ := map_eq_some_iff.mp hfill
      dsimp only
      omega
    · obtain rfl := some.inj hfill
      dsimp only
      omega
  refine ⟨s', hget, hat, hcount.1, ?_⟩
  simp [hcount.2.ne]

variable {v : ℕ}

/-- Up to a byte is read bit by bit. -/
theorem bsReadLoop_stands {j : ℕ} (h : s.Stands base (bits ++ tl) n fresh) (hv : v < 2 ^ j) (hj : j + bits.length ≤ 8) :
    ∃ s', bsReadLoop v bits.length s = some (shiftIn v bits, s') ∧
      s'.Stands base tl (n + bits.length) (fresh && bits.isEmpty) := by
  induction bits generalizing s n fresh v j with
  | nil =>
    refine ⟨s, rfl, ?_⟩
    rw [isEmpty_nil, Bool.and_true]
    exact h
  | cons b bits ih =>
    obtain ⟨s₁, hget, h₁⟩ := get_stands h
    rw [length_cons] at hj ⊢
    have hlt : v < 2 ^ 7 := hv.trans_le (Nat.pow_le_pow_right (by norm_num) (by omega))
    have hv' : 2 * v + b.toNat < 2 ^ (j + 1) := by
      have := Bool.toNat_lt b
      rw [Nat.pow_succ]
      omega
    obtain ⟨s₂, hread, h₂⟩ := ih h₁ hv' (by omega)
    refine ⟨s₂, ?_, ?_⟩
    · rw [bsReadLoop, hget, Nat.mod_eq_of_lt (by omega : 2 * v < 256)]
      exact hread
    · rw [isEmpty_cons, Bool.and_false, Nat.add_comm bits.length, ← Nat.add_assoc]
      exact h₂

theorem bsRead_stands (h : s.Stands base (bits ++ tl) n fresh) (hlen : bits.length ≤ 8) :
    ∃ s', bsRead bits.length s = some (ofBits bits, s') ∧ s'.Stands base tl (n + bits.length) (fresh && bits.isEmpty) :=
  bsReadLoop_stands (v := 0) (j := 0) h Nat.one_pos (by omega)

/-- In pieces of at most a byte any number of bits is read. -/
theorem readPieces_stands {pieces : List (Fin 9)} (h : s.Stands base (bits ++ tl) n fresh)
    (hlen : (pieces.map Fin.val).sum = bits.length) :
    ∃ s', BitCall.readPieces pieces v s = some (shiftIn v bits, s') ∧
      s'.Stands base tl (n + bits.length) (fresh && bits.isEmpty) := by
  induction pieces generalizing s bits n fresh v with
  | nil =>
    obtain rfl := length_eq_zero_iff.mp hlen.symm
    refine ⟨s, rfl, ?_⟩
    rw [isEmpty_nil, Bool.and_true]
    exact h
  | cons k pieces ih =>
    rw [map_cons, sum_cons] at hlen
    obtain ⟨piece, more, rfl, hk⟩ : ∃ piece more, bits = piece ++ more ∧ piece.length = k.val :=
      ⟨bits.take k, bits.drop k, (take_append_drop _ _).symm, by rw [length_take]; omega⟩
    rw [append_assoc] at h
    rw [length_append] at hlen
    obtain ⟨s₁, hread, h₁⟩ := bsRead_stands h (by omega)
    obtain ⟨s₂, hrest, h₂⟩ := ih (v := v * 2 ^ k.val + ofBits piece) h₁ (by omega)
    refine ⟨s₂, ?_, ?_⟩
    · rw [BitCall.readPieces, ← hk, hread]
      rw [← hk] at hrest
      rw [shiftIn_append, shiftIn_eq v piece]
      exact hrest
    · have hempty : (piece ++ more).isEmpty = (piece.isEmpty && more.isEmpty) := by cases piece <;> rfl
      rw [length_append, ← Nat.add_assoc, hempty, ← Bool.and_assoc]
      exact h₂

/-! ## The file, read beside a stream over its bytes -/

theorem Beside.readLoop {v' k : ℕ} (h : Beside f s) (hread : bsReadLoop v k s = some (v', s')) :
    ∃ f', bfReadLoop v k f = (v', f') ∧ bfReadReturns k f = true ∧ Beside f' s' ∧ s'.base = s.base := by
  induction k generalizing v f s with
  | zero =>
    obtain ⟨rfl, rfl⟩ := Prod.mk.inj (some.inj hread)
    exact ⟨f, rfl, rfl, h, rfl⟩
  | succ k ih =>
    simp only [bsReadLoop, BStream.get, bind_eq_bind, bind_eq_some_iff, map_eq_some_iff] at hread
    obtain ⟨⟨bit, s₂⟩, ⟨s₁, hfill, heq⟩, hread⟩ := hread
    obtain ⟨rfl, rfl⟩ := Prod.mk.inj heq
    obtain ⟨f₁, hf₁, h₁, hbase⟩ := h.fill hfill
    have hnext : Beside { f₁ with buf := 2 * f₁.buf % 256, bitsInBuf := f₁.bitsInBuf - 1 }
        { s₁ with buf := 2 * s₁.buf % 256, bitsInBuf := s₁.bitsInBuf - 1 } :=
      ⟨h₁.fd_eq, by simp only [h₁.buf_eq], by simp only [h₁.bits_eq], h₁.position_eq, h₁.position_le⟩
    obtain ⟨f₂, hloop, hok, h₂, hbase'⟩ := ih hnext hread
    refine ⟨f₂, ?_, ?_, h₂, hbase'.trans hbase⟩
    · rw [bfReadLoop, hf₁]
      dsimp only
      rw [h₁.buf_eq] at hloop ⊢
      exact hloop
    · rw [bfReadReturns, hf₁]
      exact hok

/-- The file stands behind `n` bits, before `bits`. -/
def BFileReader.Stands (f : BFileReader) (data : List ℕ) (bits : List Bool) (n : ℕ) (fresh : Bool) : Prop :=
  ∃ s : BStream, s.Stands data bits n fresh ∧ Beside f s

theorem bfRead_stands (h : f.Stands data (bits ++ tl) n fresh) (hlen : bits.length ≤ 8) :
    ∃ f', bfRead bits.length f = (ofBits bits, f') ∧ bfReadReturns bits.length f = true ∧
      f'.Stands data tl (n + bits.length) (fresh && bits.isEmpty) := by
  obtain ⟨s, hs, hbeside⟩ := h
  obtain ⟨s', hread, hs'⟩ := bsRead_stands hs hlen
  obtain ⟨f', hloop, hok, hbeside', -⟩ := hbeside.readLoop hread
  exact ⟨f', hloop, hok, s', hs', hbeside'⟩

theorem ofBits_natBits_mod (k v : ℕ) : ofBits (natBits k v) = v % 2 ^ k := by
  rw [ofBits, shiftIn_natBits, Nat.zero_mul, Nat.zero_add]

theorem bfReadByte_stands (i : ℕ) (cdata : List ℕ) {k : ℕ} (h : f.Stands data (natBits k v ++ tl) n fresh) (hk : k ≤ 8) :
    ∃ f', bfReadByte i k (true, cdata, f) = (true, cdata.set i (v % 2 ^ k), f') ∧
      f'.Stands data tl (n + k) (fresh && (natBits k v).isEmpty) := by
  have hlen := natBits_length k v
  obtain ⟨f', hread, hok, hf'⟩ := bfRead_stands h (by omega)
  rw [hlen] at hread hok hf'
  refine ⟨f', ?_, hf'⟩
  rw [bfReadByte, if_pos rfl, hread, hok, ofBits_natBits_mod]

/-- A full byte more of a number. -/
theorem div_mod_byte (u k : ℕ) : 256 * (u / 256 % 2 ^ k) + u % 256 = u % 2 ^ (k + 8) := by
  rw [Nat.pow_add, Nat.mul_comm (2 ^ k), Nat.mod_mul, Nat.add_comm]

/-- The loop of `BFreadWord`: after `m` rounds the first bytes of the word hold the upper bits. -/
theorem foldl_bfReadByte {rest bytes : ℕ} {cdata : List ℕ} (hbytes : bytes ≤ 4) (hlen : cdata.length = 4)
    (hhead : ntohl (cdata.take (4 - bytes)) = v / 2 ^ (8 * bytes) % 2 ^ rest) {fresh : Bool}
    (h : f.Stands data (natBits (8 * bytes) v ++ tl) n fresh) {m : ℕ} (hm : m ≤ bytes) :
    ∃ cdata' f' fresh', (range m).foldl (fun r i => bfReadByte (4 - bytes + i) 8 r) (true, cdata, f) = (true, cdata', f') ∧
      cdata'.length = 4 ∧ ntohl (cdata'.take (4 - bytes + m)) = v / 2 ^ (8 * (bytes - m)) % 2 ^ (rest + 8 * m) ∧
      f'.Stands data (natBits (8 * (bytes - m)) v ++ tl) (n + 8 * m) fresh' ∧ (fresh' = (fresh && decide (m = 0))) := by
  induction m with
  | zero => exact ⟨cdata, f, fresh, rfl, hlen, hhead, h, by simp⟩
  | succ m ih =>
    obtain ⟨cdata', f', fresh', hfold, hlen', hval, hf', -⟩ := ih (by omega)
    rw [show 8 * (bytes - m) = 8 + 8 * (bytes - (m + 1)) by omega, natBits_add, append_assoc] at hf'
    obtain ⟨f'', hbyte, hf''⟩ := bfReadByte_stands (4 - bytes + m) cdata' hf' le_rfl
    refine ⟨cdata'.set (4 - bytes + m) (v / 2 ^ (8 * (bytes - (m + 1))) % 2 ^ 8), f'', _, ?_, by rw [length_set, hlen'], ?_, hf'', ?_⟩
    · rw [range_succ, foldl_append, hfold]
      exact hbyte
    · have htake : (cdata'.set (4 - bytes + m) (v / 2 ^ (8 * (bytes - (m + 1))) % 2 ^ 8)).take (4 - bytes + (m + 1)) =
          cdata'.take (4 - bytes + m) ++ [v / 2 ^ (8 * (bytes - (m + 1))) % 2 ^ 8] := by
        rw [← Nat.add_assoc, take_succ_eq_append_getElem (by rw [length_set]; omega), getElem_set_self,
          take_set_of_le le_rfl]
      have hdiv : v / 2 ^ (8 * (bytes - m)) = v / 2 ^ (8 * (bytes - (m + 1))) / 256 := by
        rw [Nat.div_div_eq_div_mul, show 256 = 2 ^ 8 from rfl, ← Nat.pow_add]
        congr 2
        omega
      rw [htake, ntohl, foldl_append, ← ntohl, hval, hdiv]
      exact div_mod_byte _ _
    · simp [natBits_succ]

theorem bfReadWord_stands {k : ℕ} (h : f.Stands data (natBits k v ++ tl) n fresh) (hk : k ≤ 32) :
    ∃ cdata f', bfReadWord k [0, 0, 0, 0] f = (true, cdata, f') ∧ ntohl cdata = v % 2 ^ k ∧
      f'.Stands data tl (n + k) (fresh && decide (k = 0)) := by
  have hbytes : k / 8 ≤ 4 := by omega
  have hsum : k % 8 + 8 * (k / 8) = k := Nat.mod_add_div k 8
  -- the first byte gets the bits that are left over
  obtain ⟨cdata, f₁, hfirst, hlen, hhead, h₁⟩ : ∃ cdata f₁,
      (if k % 8 ≠ 0 then bfReadByte (3 - k / 8) (k % 8) (true, [0, 0, 0, 0], f) else (true, [0, 0, 0, 0], f)) = (true, cdata, f₁) ∧
        cdata.length = 4 ∧ ntohl (cdata.take (4 - k / 8)) = v / 2 ^ (8 * (k / 8)) % 2 ^ (k % 8) ∧
          f₁.Stands data (natBits (8 * (k / 8)) v ++ tl) (n + k % 8) (fresh && decide (k % 8 = 0)) := by
    have hsplit := natBits_add (k % 8) (8 * (k / 8)) v
    rw [hsum] at hsplit
    rw [hsplit, append_assoc] at h
    by_cases hrest : k % 8 ≠ 0
    · obtain ⟨f₁, hbyte, h₁⟩ := bfReadByte_stands (3 - k / 8) [0, 0, 0, 0] h (by omega)
      refine ⟨_, f₁, (if_pos hrest).trans hbyte, by rw [length_set]; rfl, ?_, ?_⟩
      · have hlt : k / 8 < 4 := by omega
        interval_cases k / 8 <;> simp [ntohl]
      · rw [decide_eq_false hrest]
        obtain ⟨j, hj⟩ := Nat.exists_eq_succ_of_ne_zero hrest
        rw [hj] at h₁ ⊢
        exact h₁
    · have h0 : k % 8 = 0 := not_not.mp hrest
      rw [h0] at h
      refine ⟨[0, 0, 0, 0], f, if_neg hrest, rfl, ?_, ?_⟩
      · rw [h0, Nat.pow_zero, Nat.mod_one]
        interval_cases k / 8 <;> rfl
      · rw [h0, decide_eq_true rfl, Bool.and_true]
        exact h
  obtain ⟨cdata', f', fresh', hfold, hlen', hval, h', hfresh⟩ := foldl_bfReadByte hbytes hlen hhead h₁ le_rfl
  refine ⟨cdata', f', ?_, ?_, ?_⟩
  · rw [bfReadWord, if_neg (by omega)]
    dsimp only
    rw [hfirst, hfold]
  · rw [Nat.sub_self, Nat.mul_zero, Nat.pow_zero, Nat.div_one, hsum, Nat.sub_add_cancel hbytes,
      take_of_length_le (by omega)] at hval
    exact hval
  · rw [Nat.sub_self, Nat.mul_zero, natBits_zero, nil_append, Nat.add_assoc, hsum, hfresh, Bool.and_assoc] at h'
    have hzero : (decide (k % 8 = 0) && decide (k / 8 = 0)) = decide (k = 0) := by
      rw [← Bool.decide_and]
      exact decide_eq_decide.mpr (by omega)
    rwa [hzero] at h'

/-! ## Flushes of the readers -/

/-- The reader loads the byte behind the padding. -/
theorem flush_stands (h : s.Stands base (replicate (padding n) false ++ bits) n false) (hlt : s.position < base.length) :
    ∃ s', bsReaderFlush s = some s' ∧ s'.Stands base bits (n + padding n) true := by
  obtain ⟨⟨hbase, hle, hrest⟩, hread, hfresh⟩ := h
  have hne : s.bitsInBuf ≠ 8 := fun h8 => absurd (hfresh.mp h8) Bool.false_ne_true
  have hpad : s.bitsInBuf = padding n := by
    unfold padding
    omega
  have hbits : bytesBits (base.drop s.position) = bits := by
    refine append_inj_right hrest ?_
    rw [length_take, natBits_length, length_replicate]
    omega
  rw [drop_eq_getElem_cons hlt, bytesBits_cons] at hbits
  refine ⟨{ s with buf := base[s.position], bitsInBuf := 8, position := s.position + 1 }, ?_, ⟨hbase, le_rfl, ?_⟩, ?_, by simp⟩
  · rw [bsReaderFlush, hbase, getElem?_eq_getElem hlt]
    rfl
  · rw [take_of_length_le (by rw [natBits_length])]
    exact hbits
  · dsimp only
    omega

theorem Beside.flush (h : Beside f s) (hflush : bsReaderFlush s = some s') :
    ∃ f', bfReaderFlush f = (true, f') ∧ Beside f' s' := by
  obtain ⟨byte, hbyte, rfl⟩ := map_eq_some_iff.mp hflush
  obtain ⟨hlt, rfl⟩ := List.getElem?_eq_some_iff.mp hbyte
  have hfd := h.fd_eq
  rw [drop_eq_getElem_cons hlt] at hfd
  refine ⟨{ fd := s.base.drop (s.position + 1), buf := s.base[s.position], bitsInBuf := 8, position := f.position + 1 }, ?_,
    rfl, rfl, rfl, ?_, hlt⟩
  · rw [bfReaderFlush, hfd]
  · dsimp only
    rw [h.position_eq]

/-- At the end of the file a flush only moves the position. -/
theorem bfReaderFlush_end (h : Beside f s) (hend : s.position = s.base.length) :
    (bfReaderFlush f).2.position = s.position + 1 := by
  have hfd := h.fd_eq
  rw [hend, drop_length] at hfd
  rw [bfReaderFlush, hfd]
  dsimp only
  rw [h.position_eq]

/-! ## Runs -/

variable {calls : List BitCall}

namespace BitCall

/-- No flush without a bit since the last one; `fresh` if there was none so far. -/
def ReadsApart : Bool → List BitCall → Prop
  | _, [] => True
  | fresh, .flush :: calls => fresh = false ∧ ReadsApart true calls
  | fresh, c :: calls => ReadsApart (fresh && decide (c.width = 0)) calls

theorem readsApart_cons (hc : c ≠ .flush) :
    ReadsApart fresh (c :: calls) = ReadsApart (fresh && decide (c.width = 0)) calls := by
  cases c with
  | write data nbits => rfl
  | writeWord data nbits => rfl
  | flush => exact absurd rfl hc

theorem readsApart_of (h : FlushesApart calls)
    (hfresh : fresh = true → ∀ between behind, calls = between ++ .flush :: behind → ∃ c ∈ between, 0 < c.width) :
    ReadsApart fresh calls := by
  induction calls generalizing fresh with
  | nil => trivial
  | cons c calls ih =>
    have htail : FlushesApart calls := fun before between behind heq => h (c :: before) between behind (by rw [heq, cons_append])
    by_cases hc : c = .flush
    · subst hc
      refine ⟨?_, ih htail fun _ between behind heq => h [] between behind (by rw [heq, nil_append])⟩
      by_contra hne
      obtain ⟨d, hd, -⟩ := hfresh (Bool.eq_true_of_not_eq_false hne) [] calls rfl
      exact absurd hd not_mem_nil
    · rw [readsApart_cons hc]
      refine ih htail fun hstill between behind heq => ?_
      obtain ⟨hf, hwidth⟩ := Bool.and_eq_true_iff.mp hstill
      obtain ⟨d, hd, hpos⟩ := hfresh hf (c :: between) behind (by rw [heq, cons_append])
      obtain rfl | hd := mem_cons.mp hd
      · exact absurd (of_decide_eq_true hwidth) hpos.ne'
      · exact ⟨d, hd, hpos⟩

theorem isEmpty_bits (c : BitCall) : c.bits.isEmpty = decide (c.width = 0) := by
  rw [← length_bits]
  cases c.bits <;> rfl

theorem value_eq (hc : c ≠ .flush) : c.value = some (ofBits c.bits) := by
  cases c with
  | write data nbits => exact congrArg some (ofBits_natBits_mod _ _).symm
  | writeWord data nbits => exact congrArg some (ofBits_natBits_mod _ _).symm
  | flush => exact absurd rfl hc

theorem readStream_stands (hc : c ≠ .flush) {pieces : List (Fin 9)} (hpieces : (pieces.map Fin.val).sum = c.width)
    (h : s.Stands base (c.bits ++ tl) n fresh) :
    ∃ s', readStream pieces s c = some (c.value, s') ∧ s'.Stands base tl (n + c.width) (fresh && decide (c.width = 0)) := by
  rw [← length_bits] at hpieces
  obtain ⟨s', hread, hs'⟩ := readPieces_stands (v := 0) h hpieces
  rw [length_bits, isEmpty_bits] at hs'
  refine ⟨s', ?_, hs'⟩
  rw [value_eq hc]
  cases c with
  | write data nbits => exact congrArg (Option.map _) hread
  | writeWord data nbits => exact congrArg (Option.map _) hread
  | flush => exact absurd rfl hc

theorem readFile_stands (hc : c ≠ .flush) (h : f.Stands data (c.bits ++ tl) n fresh) :
    ∃ f', readFile f c = (c.value.map (true, ·), f') ∧ f'.Stands data tl (n + c.width) (fresh && decide (c.width = 0)) := by
  cases c with
  | write data' nbits =>
    obtain ⟨f', hread, hok, hf'⟩ := bfRead_stands h (by rw [length_bits]; exact Nat.lt_succ_iff.mp nbits.isLt)
    rw [length_bits] at hread hok hf'
    rw [isEmpty_bits] at hf'
    refine ⟨f', ?_, hf'⟩
    rw [value_eq hc]
    change (some (bfReadReturns nbits f, (bfRead nbits f).1), (bfRead nbits f).2) = _
    rw [show bfRead nbits f = _ from hread, show bfReadReturns nbits f = true from hok]
    rfl
  | writeWord data' nbits =>
    obtain ⟨cdata, f', hread, hval, hf'⟩ := bfReadWord_stands h (Nat.lt_succ_iff.mp nbits.isLt)
    refine ⟨f', ?_, hf'⟩
    rw [readFile, hread, hval]
    rfl
  | flush => exact absurd rfl hc

/-- Nothing is read from a file for a value without bits. -/
theorem readFile_empty (hc : c ≠ .flush) (hwidth : c.width = 0) : readFile f c = (c.value.map (true, ·), f) := by
  cases c with
  | write data nbits =>
    obtain rfl : nbits = 0 := Fin.val_eq_zero_iff.mp hwidth
    simp [readFile, value, bfRead, bfReadLoop, bfReadReturns, Nat.mod_one]
  | writeWord data nbits =>
    obtain rfl : nbits = 0 := Fin.val_eq_zero_iff.mp hwidth
    simp [readFile, value, bfReadWord, ntohl, Nat.mod_one]
  | flush => exact absurd rfl hc

/-- The file stands where the stream stands, or its end has been loaded. -/
def Reading (data : List ℕ) (n : ℕ) (fresh : Bool) (calls : List BitCall) (f : BFileReader) (s : BStream) : Prop :=
  f.Stands data (fileBits n calls) n fresh ∨ f.position = s.position ∧ n = 8 * data.length ∧ fresh = true

theorem Reading.position_eq (h : Reading data n fresh calls f s) (hs : s.Stands base bits n fresh) :
    f.position = s.position := by
  obtain ⟨s₀, h₀, hbeside⟩ | ⟨heq, -⟩ := h
  · have h1 := h₀.read_eq
    have h2 := hs.read_eq
    have h3 := h₀.fresh_iff.trans hs.fresh_iff.symm
    have h4 := h₀.stands.bits_le
    have h5 := hs.stands.bits_le
    rw [hbeside.position_eq]
    omega
  · exact heq

/-- The run lemma: both readers return the values, and stand at the same position after each call. -/
theorem runs_agree {calls : List (BitCall × List (Fin 9))} (b : ℕ) (behind : List ℕ) (hpieces : ∀ c ∈ calls, (c.2.map Fin.val).sum = c.1.width)
    (hapart : ReadsApart fresh (calls.map Prod.fst)) (hn : n + (fileBits n (calls.map Prod.fst)).length = 8 * data.length)
    (hs : s.Stands (data ++ b :: behind) (fileBits n (calls.map Prod.fst) ++ bytesBits (b :: behind)) n fresh)
    (hf : Reading data n fresh (calls.map Prod.fst) f s) :
    ∃ results, streamRun calls s = some results ∧ results.map Prod.fst = calls.map (fun c => c.1.value) ∧
      (fileRun (calls.map Prod.fst) f).map Prod.fst = calls.map (fun c => c.1.value.map (true, ·)) ∧
        (fileRun (calls.map Prod.fst) f).map Prod.snd = results.map Prod.snd := by
  induction calls generalizing n fresh f s with
  | nil => exact ⟨[], rfl, rfl, rfl, rfl⟩
  | cons call calls ih =>
    obtain ⟨c, pieces⟩ := call
    rw [map_cons] at hapart hn hs hf ⊢
    have hrest : ∀ c ∈ calls, (c.2.map Fin.val).sum = c.1.width := fun c hc => hpieces c (mem_cons_of_mem _ hc)
    -- the state after the first call determines the rest
    suffices hstep : ∃ n' fresh' f' s', readStream pieces s c = some (c.value, s') ∧ readFile f c = (c.value.map (true, ·), f') ∧
        ReadsApart fresh' (calls.map Prod.fst) ∧ n' + (fileBits n' (calls.map Prod.fst)).length = 8 * data.length ∧
        s'.Stands (data ++ b :: behind) (fileBits n' (calls.map Prod.fst) ++ bytesBits (b :: behind)) n' fresh' ∧
        Reading data n' fresh' (calls.map Prod.fst) f' s' by
      obtain ⟨n', fresh', f', s', hstream, hfile, hapart', hn', hs', hf'⟩ := hstep
      obtain ⟨results, hrun, hvalues, hfvalues, hpositions⟩ := ih hrest hapart' hn' hs' hf'
      have hpos := hf'.position_eq hs'
      refine ⟨(c.value, s'.position) :: results, ?_, ?_, ?_, ?_⟩
      · simp only [streamRun, hstream, hrun, bind_eq_bind, bind_some]
      · simp only [map_cons, hvalues]
      · simp only [fileRun, hfile, map_cons, hfvalues]
      · simp only [fileRun, hfile, map_cons, hpositions, hpos]
    by_cases hc : c = .flush
    · subst hc
      obtain ⟨rfl, hapart⟩ := hapart
      rw [fileBits, length_append, length_replicate, ← Nat.add_assoc] at hn
      rw [fileBits, append_assoc] at hs
      have hle : n + padding n ≤ 8 * data.length := by omega
      have hread := hs.read_eq
      have hne : s.bitsInBuf ≠ 8 := fun h8 => absurd (hs.fresh_iff.mp h8) Bool.false_ne_true
      have hbits := hs.stands.bits_le
      have hpad : 8 * s.position = n + padding n := by
        unfold padding
        omega
      obtain ⟨s', hflush, hs'⟩ := flush_stands hs (by rw [length_append, length_cons]; omega)
      refine ⟨n + padding n, true, (bfReaderFlush f).2, s', ?_, rfl, hapart, hn, hs', ?_⟩
      · rw [readStream, hflush]
        rfl
      · obtain ⟨s₀, h₀, hbeside⟩ | ⟨-, -, hfalse⟩ := hf
        · have hsame : s₀.position = s.position := by
            have := Reading.position_eq (.inl ⟨s₀, h₀, hbeside⟩) hs
            rw [← this, hbeside.position_eq]
          have hbase := h₀.stands.base_eq
          rw [fileBits] at h₀
          by_cases hend : s.position < data.length
          · obtain ⟨s₁, hflush₀, h₁⟩ := flush_stands h₀ (by omega)
            obtain ⟨f', hfile, hbeside'⟩ := hbeside.flush hflush₀
            rw [hfile]
            exact .inl ⟨s₁, h₁, hbeside'⟩
          · refine .inr ⟨?_, by omega, rfl⟩
            rw [bfReaderFlush_end hbeside (by rw [hbase]; omega), hsame]
            have := hs'.read_eq
            have := hs'.fresh_iff.mpr rfl
            omega
        · exact absurd hfalse Bool.false_ne_true
    · rw [fileBits_cons hc, length_append, length_bits, ← Nat.add_assoc] at hn
      rw [fileBits_cons hc, append_assoc] at hs
      rw [readsApart_cons hc] at hapart
      obtain ⟨s', hstream, hs'⟩ := readStream_stands hc (hpieces _ mem_cons_self) hs
      obtain hf | ⟨hpos, hend, rfl⟩ := hf
      · rw [fileBits_cons hc] at hf
        obtain ⟨f', hfile, hf'⟩ := readFile_stands hc hf
        exact ⟨_, _, f', s', hstream, hfile, hapart, hn, hs', .inl hf'⟩
      · have hwidth : c.width = 0 := by omega
        refine ⟨_, _, f, s', hstream, readFile_empty hc hwidth, hapart, hn, hs', .inr ⟨?_, by omega, ?_⟩⟩
        · have h1 := hs.read_eq
          have h2 := hs'.read_eq
          have h3 := hs.fresh_iff.mpr rfl
          have h4 := hs'.fresh_iff.mpr (by rw [hwidth]; rfl)
          omega
        · rw [hwidth]
          rfl

end BitCall

open BitCall in
/-- Reading with the calls that wrote a file returns the values that were written, from the file and from a stream in
pieces, and the two readers always report the same position. -/
theorem bitio_roundtrip (calls : List (BitCall × List (Fin 9))) (hpieces : ∀ c ∈ calls, (c.2.map Fin.val).sum = c.1.width)
    (hflush : FlushesApart (calls.map Prod.fst)) (b : ℕ) (behind : List ℕ) :
    ∃ results, streamRun calls (bsOpen (written (calls.map Prod.fst) ++ b :: behind)) = some results ∧
      results.map Prod.fst = calls.map (fun c => c.1.value) ∧
        (fileRun (calls.map Prod.fst) (bfOpen (written (calls.map Prod.fst)))).map Prod.fst =
            calls.map (fun c => c.1.value.map (true, ·)) ∧
          (fileRun (calls.map Prod.fst) (bfOpen (written (calls.map Prod.fst)))).map Prod.snd = results.map Prod.snd := by
  have hbits := written_bits (calls.map Prod.fst)
  generalize written (calls.map Prod.fst) = data at hbits ⊢
  have hstart : ∀ base : List ℕ, (bsOpen base).Stands base (bytesBits base) 0 false := fun base =>
    ⟨⟨rfl, Nat.zero_le 8, rfl⟩, rfl, by simp [bsOpen]⟩
  have hn : 0 + (fileBits 0 (calls.map Prod.fst)).length = 8 * data.length := by
    rw [← hbits, bytesBits_length, Nat.zero_add]
  have hs : (bsOpen (data ++ b :: behind)).Stands (data ++ b :: behind) (fileBits 0 (calls.map Prod.fst) ++ bytesBits (b :: behind)) 0
      false := by
    rw [← hbits, ← bytesBits_append]
    exact hstart _
  have hf : (bfOpen data).Stands data (fileBits 0 (calls.map Prod.fst)) 0 false := by
    rw [← hbits]
    exact ⟨bsOpen data, hstart data, rfl, rfl, rfl, rfl, Nat.zero_le _⟩
  exact runs_agree b behind hpieces (readsApart_of hflush fun h => absurd h Bool.false_ne_true) hn hs (.inl hf)

/-- Eleven bits in two pieces, padded to two bytes, and two bits in a byte of their own. -/
def twoFlushes : List (BitCall × List (Fin 9)) :=
  [(.writeWord 0x5A5 11, [8, 3]), (.flush, []), (.write 2 2, [1, 1]), (.flush, [])]

theorem twoFlushes_pieces : ∀ c ∈ twoFlushes, (c.2.map Fin.val).sum = c.1.width := by
  simp [twoFlushes, BitCall.width]

theorem twoFlushes_apart : BitCall.FlushesApart (twoFlushes.map Prod.fst) := by
  intro before between behind h
  simp only [twoFlushes, map_cons, map_nil] at h
  rcases before with _ | ⟨_, _ | ⟨_, _ | ⟨_, _ | ⟨_, before⟩⟩⟩⟩
  · simp at h
  · rcases between with _ | ⟨_, _ | ⟨_, between⟩⟩
    · simp at h
    · simp only [nil_append, cons_append, List.cons.injEq] at h
      exact ⟨_, mem_cons_self, by rw [← h.2.2.1]; exact Nat.two_pos⟩
    · simp at h
  · simp at h
  · simp at h
  · simp at h

open BitCall in
theorem bitio_roundtrip_twoFlushes : ∃ results,
    streamRun twoFlushes (bsOpen (written (twoFlushes.map Prod.fst) ++ [0])) = some results ∧
      results.map Prod.fst = twoFlushes.map (fun c => c.1.value) ∧
        (fileRun (twoFlushes.map Prod.fst) (bfOpen (written (twoFlushes.map Prod.fst)))).map Prod.fst =
            twoFlushes.map (fun c => c.1.value.map (true, ·)) ∧
          (fileRun (twoFlushes.map Prod.fst) (bfOpen (written (twoFlushes.map Prod.fst)))).map Prod.snd = results.map Prod.snd :=
  bitio_roundtrip twoFlushes twoFlushes_pieces twoFlushes_apart 0 []

end CWB
