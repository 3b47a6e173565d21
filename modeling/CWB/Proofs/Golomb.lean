import CWB.Sanity.BitIO
import CWB.Spec.InvertedIndex

/-! The Golomb code: `write_golomb_code` appends `golombBits`, and `read_golomb_code_bs`
reads exactly these bits back. A residue below `2 ^ ub - b` is written in one bit less. -/

namespace CWB

open Nat Option List Bits

def golombBits (x b : ℕ) : List Bool :=
  replicate (x / b) true ++ false ::
    (if x % b < 2 ^ clog 2 b - b then natBits (clog 2 b - 1) (x % b)
     else natBits (clog 2 b) (x % b + (2 ^ clog 2 b - b)))

/-- The parameters that `compute_ba` can return. -/
def GolombParam (b : ℕ) : Prop := 2 ≤ b ∧ b < 2 ^ 31

theorem computeBa_param (pa : ℕ → ℕ → Int32) (ft corpusSize : ℕ) : GolombParam (computeBa pa ft corpusSize) := by
  unfold computeBa
  by_cases h : 1 < pa ft corpusSize
  · rw [if_pos h]
    have h1 : (1 : ℤ) < (pa ft corpusSize).toInt := Int32.lt_iff_toInt_lt.mp h
    have h2 := (pa ft corpusSize).toInt_lt
    exact ⟨by omega, by omega⟩
  · rw [if_neg h]
    exact ⟨le_rfl, by decide⟩

variable {b : ℕ}

theorem clog_bounds (hb : GolombParam b) :
    2 ^ (clog 2 b - 1) < b ∧ b ≤ 2 ^ clog 2 b ∧ 1 ≤ clog 2 b ∧ clog 2 b ≤ 31 := by
  refine ⟨pow_pred_clog_lt_self (by norm_num) hb.1, le_pow_clog (by norm_num) b,
    clog_pos (by norm_num) hb.1, ?_⟩
  exact (clog_le_iff_le_pow (by norm_num)).mpr hb.2.le

theorem foldl_ones {f : BFile} (hf : f.Ok) (q : ℕ) :
    ((range q).foldl (fun bf _ => bfWrite 1 1 bf) f).Ok ∧
    ((range q).foldl (fun bf _ => bfWrite 1 1 bf) f).bits = f.bits ++ replicate q true := by
  induction q with
  | zero => simpa using hf
  | succ q ih =>
    rw [range_succ, foldl_append, foldl_cons, foldl_nil]
    refine ⟨bfWrite_ok ih.1 _ _, ?_⟩
    rw [bfWrite_bits ih.1, ih.2, append_assoc, replicate_succ']
    rfl

theorem writeGolombCode_ok {f : BFile} (hf : f.Ok) (x b : ℕ) : (writeGolombCode x b f).Ok := by
  have hu := bfWrite_ok (foldl_ones hf (x / b)).1 0 1
  simp only [writeGolombCode]
  split_ifs
  · exact bfWriteWord_ok hu _ _
  · exact bfWriteWord_ok hu _ _

theorem writeGolombCode_bits {f : BFile} (hf : f.Ok) (x : ℕ) (hb : GolombParam b) :
    (writeGolombCode x b f).bits = f.bits ++ golombBits x b := by
  obtain ⟨-, -, -, hub⟩ := clog_bounds hb
  obtain ⟨hok, hbits⟩ := foldl_ones hf (x / b)
  have hu := bfWrite_ok hok 0 1
  have hubits : (bfWrite 0 1 ((range (x / b)).foldl (fun bf _ => bfWrite 1 1 bf) f)).bits =
      f.bits ++ (replicate (x / b) true ++ [false]) := by
    rw [bfWrite_bits hok, hbits, append_assoc]
    rfl
  have hres : x - x / b * b = x % b := (mod_eq_sub_div_mul).symm
  unfold writeGolombCode golombBits
  simp only [hres]
  split_ifs with h
  · rw [bfWriteWord_bits hu _ (by omega), hubits]
    simp
  · rw [bfWriteWord_bits hu _ (by omega), hubits]
    simp

variable {s : BStream} {base : List ℕ}

theorem at_length_le {bits : List Bool} (h : s.At base bits) :
    bits.length ≤ 8 * base.length + 8 := by
  have hle := h.bits_le
  rw [← h.rest_eq, length_append, bytesBits_length, length_take, natBits_length, length_drop]
  omega

variable {tl : List Bool}

theorem readUnary_at (m fuel q : ℕ) (hm : m < fuel) (h : s.At base (replicate m true ++ false :: tl)) :
    ∃ s', readUnary fuel q s = some (q + m, s') ∧ s'.At base tl := by
  induction m generalizing fuel q s with
  | zero =>
    obtain ⟨fuel, rfl⟩ : ∃ k, fuel = k + 1 := ⟨fuel - 1, by omega⟩
    obtain ⟨s', hread, hat⟩ := bsRead_one h
    exact ⟨s', by simp [readUnary, hread], hat⟩
  | succ m ih =>
    obtain ⟨fuel, rfl⟩ : ∃ k, fuel = k + 1 := ⟨fuel - 1, by omega⟩
    rw [replicate_succ, cons_append] at h
    obtain ⟨s1, hread, hat1⟩ := bsRead_one h
    obtain ⟨s', hrest, hat⟩ := ih fuel (q + 1) (by omega) hat1
    refine ⟨s', ?_, hat⟩
    rw [show q + (m + 1) = q + 1 + m by omega]
    simp [readUnary, hread, hrest]

theorem le_shiftIn (v : ℕ) (bs : List Bool) : v ≤ shiftIn v bs := by
  induction bs generalizing v with
  | nil => exact le_rfl
  | cons b bs ih => exact le_trans (by omega) (ih (2 * v + b.toNat))

theorem readBinary_at (bs : List Bool) {r : ℕ} (hr : shiftIn r bs < 2 ^ 32) (h : s.At base (bs ++ tl)) :
    ∃ s', readBinary bs.length r s = some (shiftIn r bs, s') ∧ s'.At base tl := by
  induction bs generalizing r s with
  | nil => exact ⟨s, rfl, h⟩
  | cons b bs ih =>
    obtain ⟨s1, hread, hat1⟩ := bsRead_one h
    rw [shiftIn_cons] at hr
    have hle := le_shiftIn (2 * r + b.toNat) bs
    obtain ⟨s', hrest, hat⟩ := ih hr hat1
    refine ⟨s', ?_, hat⟩
    rw [shiftIn_cons, length_cons, readBinary, hread]
    simp only [bind_eq_bind, bind_some]
    rw [mod_eq_of_lt (by omega), hrest]

theorem readBinary_natBits {k n : ℕ} (hk : k ≤ 31) (hn : n < 2 ^ k) (h : s.At base (natBits k n ++ tl)) :
    ∃ s', readBinary k 0 s = some (n, s') ∧ s'.At base tl := by
  have hv : shiftIn 0 (natBits k n) = n := ofBits_natBits hn
  have h31 : 2 ^ k ≤ 2 ^ 31 := Nat.pow_le_pow_right (by norm_num) hk
  obtain ⟨s', hread, hat⟩ := readBinary_at (natBits k n) (by rw [hv]; omega) h
  rw [hv, natBits_length] at hread
  exact ⟨s', hread, hat⟩

theorem readGolombCodeBs_at (hb : GolombParam b) (x : ℕ) (h : s.At base (golombBits x b ++ tl)) :
    ∃ s', readGolombCodeBs b s = some (x, s') ∧ s'.At base tl := by
  obtain ⟨hlb, hub, hpos, h31⟩ := clog_bounds hb
  have hlen := at_length_le h
  have hdm := div_add_mod' x b
  have hmod : x % b < b := mod_lt _ (by have := hb.1; omega)
  have hpow : 2 ^ clog 2 b = 2 * 2 ^ (clog 2 b - 1) := by
    rw [← Nat.pow_succ', succ_eq_add_one, Nat.sub_add_cancel hpos]
  unfold golombBits at h hlen
  rw [append_assoc, cons_append] at h
  obtain ⟨s1, hun, hat1⟩ := readUnary_at (x / b) (8 * s.base.length + 8) 0
    (by rw [h.base_eq]; simp only [length_append, length_replicate, length_cons] at hlen; omega) h
  rw [Nat.zero_add] at hun
  by_cases hres : x % b < 2 ^ clog 2 b - b
  · -- the short code
    rw [if_pos hres] at hat1
    obtain ⟨s2, hbin, hat2⟩ := readBinary_natBits (by omega) (by omega) hat1
    refine ⟨s2, ?_, hat2⟩
    simp only [readGolombCodeBs, hun, hbin, bind_eq_bind, bind_some]
    rw [if_neg (by omega)]
    congr 2
    omega
  · -- the long code: its first bits alone are at least `nr_sc`
    rw [if_neg hres] at hat1
    set v := x % b + (2 ^ clog 2 b - b) with hv
    have hvlt : v < 2 ^ clog 2 b := by omega
    have hsplit := natBits_add (clog 2 b - 1) 1 v
    rw [Nat.sub_add_cancel hpos, pow_one] at hsplit
    rw [hsplit, append_assoc] at hat1
    obtain ⟨s2, hbin, hat2⟩ := readBinary_natBits (by omega) (by omega) hat1
    have hlast : shiftIn (v / 2) (natBits 1 v) = v := by
      rw [shiftIn_natBits]
      omega
    obtain ⟨s3, hbin1, hat3⟩ := readBinary_at (r := v / 2) (natBits 1 v)
      (by rw [hlast]; have : 2 ^ clog 2 b ≤ 2 ^ 31 := Nat.pow_le_pow_right (by norm_num) h31; omega) hat2
    rw [hlast, natBits_length] at hbin1
    refine ⟨s3, ?_, hat3⟩
    simp only [readGolombCodeBs, hun, hbin, bind_eq_bind, bind_some]
    rw [if_pos (by omega), hbin1]
    simp only [bind_some]
    congr 2
    omega

/-! The reader of a file does what the reader of a stream over the same bytes does. -/

variable {f : BFileReader} {s' : BStream}

theorem readUnaryBf_beside (fuel fuel' q : ℕ) {q' : ℕ} (h : Beside f s)
    (hfuel : f.left < fuel') (hread : readUnary fuel q s = some (q', s')) :
    ∃ f', readUnaryBf fuel' q f = some (q', f') ∧ Beside f' s' ∧ s'.base = s.base := by
  induction fuel generalizing fuel' q f s with
  | zero => cases hread
  | succ fuel ih =>
    obtain ⟨fuel', rfl⟩ : ∃ k, fuel' = k + 1 := ⟨fuel' - 1, by omega⟩
    simp only [readUnary, bind_eq_bind, bind_eq_some_iff] at hread
    obtain ⟨⟨bit, s₁⟩, hbit, hrest⟩ := hread
    obtain ⟨f₁, hf₁, hb, hbase, hleft⟩ := h.read hbit
    rw [readUnaryBf, hf₁]
    by_cases h0 : bit ≠ 0
    · simp only [if_pos h0] at hrest ⊢
      obtain ⟨f', hf', hb', hbase'⟩ := ih fuel' (q + 1) hb (by omega) hrest
      exact ⟨f', hf', hb', hbase'.trans hbase⟩
    · simp only [if_neg h0] at hrest ⊢
      cases hrest
      exact ⟨f₁, rfl, hb, hbase⟩

theorem readBinaryBf_beside (n r : ℕ) {r' : ℕ} (h : Beside f s) (hread : readBinary n r s = some (r', s')) :
    ∃ f', readBinaryBf n r f = (r', f') ∧ Beside f' s' ∧ s'.base = s.base := by
  induction n generalizing r f s with
  | zero =>
    cases hread
    exact ⟨f, rfl, h, rfl⟩
  | succ n ih =>
    simp only [readBinary, bind_eq_bind, bind_eq_some_iff] at hread
    obtain ⟨⟨bit, s₁⟩, hbit, hrest⟩ := hread
    obtain ⟨f₁, hf₁, hb, hbase, -⟩ := h.read hbit
    obtain ⟨f', hf', hb', hbase'⟩ := ih _ hb hrest
    exact ⟨f', by rw [readBinaryBf, hf₁]; exact hf', hb', hbase'.trans hbase⟩

theorem readGolombCodeBf_beside {x : ℕ} (h : Beside f s) (hread : readGolombCodeBs b s = some (x, s')) :
    ∃ f', readGolombCodeBf b f = some (x, f') ∧ Beside f' s' ∧ s'.base = s.base := by
  simp only [readGolombCodeBs, bind_eq_bind, bind_eq_some_iff] at hread
  obtain ⟨⟨q, s₁⟩, hq, ⟨r, s₂⟩, hr, hrest⟩ := hread
  obtain ⟨f₁, hf₁, hb₁, hbase₁⟩ := readUnaryBf_beside _ (8 * f.fd.length + f.bitsInBuf + 1) 0 h (lt_succ_self _) hq
  obtain ⟨f₂, hf₂, hb₂, hbase₂⟩ := readBinaryBf_beside _ _ hb₁ hr
  simp only [readGolombCodeBf, hf₁, hf₂, bind_eq_bind, bind_some]
  by_cases hlong : r ≥ 2 ^ clog 2 b - b
  · simp only [if_pos hlong, bind_eq_some_iff] at hrest ⊢
    obtain ⟨⟨r', s₃⟩, hr', heq⟩ := hrest
    obtain ⟨f₃, hf₃, hb₃, hbase₃⟩ := readBinaryBf_beside _ _ hb₂ hr'
    cases heq
    refine ⟨f₃, by rw [hf₃], hb₃, hbase₃.trans (hbase₂.trans hbase₁)⟩
  · simp only [if_neg hlong] at hrest ⊢
    cases hrest
    exact ⟨f₂, rfl, hb₂, hbase₂.trans hbase₁⟩

/-! Sequences. -/

def writeGolombCodes (b : ℕ) (xs : List ℕ) (bf : BFile) : BFile := xs.foldl (fun bf x => writeGolombCode x b bf) bf

def readGolombCodesBs (b : ℕ) : ℕ → BStream → Option (List ℕ × BStream)
  | 0, bs => some ([], bs)
  | n + 1, bs => do
    let (x, bs) ← readGolombCodeBs b bs
    let (xs, bs) ← readGolombCodesBs b n bs
    some (x :: xs, bs)

def readGolombCodesBf (b : ℕ) : ℕ → BFileReader → Option (List ℕ × BFileReader)
  | 0, bf => some ([], bf)
  | n + 1, bf => do
    let (x, bf) ← readGolombCodeBf b bf
    let (xs, bf) ← readGolombCodesBf b n bf
    some (x :: xs, bf)

theorem writeGolombCodes_bits (hb : GolombParam b) (xs : List ℕ) {bf : BFile} (hbf : bf.Ok) :
    (writeGolombCodes b xs bf).bits = bf.bits ++ xs.flatMap fun x => golombBits x b := by
  induction xs generalizing bf with
  | nil => simp [writeGolombCodes]
  | cons x xs ih =>
    have hstep := ih (writeGolombCode_ok hbf x b)
    rw [writeGolombCode_bits hbf x hb, append_assoc] at hstep
    exact hstep

theorem readGolombCodesBs_at {data : List ℕ} (hb : GolombParam b) (xs : List ℕ)
    (h : s.At data (xs.flatMap (fun x => golombBits x b) ++ tl)) :
    ∃ s', readGolombCodesBs b xs.length s = some (xs, s') ∧ s'.At data tl := by
  induction xs generalizing s with
  | nil => exact ⟨s, rfl, h⟩
  | cons x xs ih =>
    rw [flatMap_cons, append_assoc] at h
    obtain ⟨s₁, hx, hat₁⟩ := readGolombCodeBs_at hb x h
    obtain ⟨s', hxs, hat⟩ := ih hat₁
    exact ⟨s', by simp [readGolombCodesBs, hx, hxs], hat⟩

theorem readGolombCodesBf_beside (n : ℕ) {xs : List ℕ} (h : Beside f s)
    (hread : readGolombCodesBs b n s = some (xs, s')) :
    ∃ f', readGolombCodesBf b n f = some (xs, f') ∧ Beside f' s' := by
  induction n generalizing xs f s with
  | zero =>
    cases hread
    exact ⟨f, rfl, h⟩
  | succ n ih =>
    simp only [readGolombCodesBs, bind_eq_bind, bind_eq_some_iff] at hread
    obtain ⟨⟨x, s₁⟩, hx, ⟨ys, s₂⟩, hys, heq⟩ := hread
    cases heq
    obtain ⟨f₁, hf₁, hb₁, -⟩ := readGolombCodeBf_beside h hx
    obtain ⟨f₂, hf₂, hb₂⟩ := ih hb₁ hys
    exact ⟨f₂, by simp [readGolombCodesBf, hf₁, hf₂], hb₂⟩

/-- The file reader beside a stream after the sequence, and the stream, stand behind the codes. -/
theorem readGolombCodes_beside (hb : GolombParam b) (xs : List ℕ) {bf : BFile} (hbf : bf.Ok) {data : List ℕ}
    (hdata : bytesBits data = (writeGolombCodes b xs bf).bits ++ tl)
    (hs : s.HasRead data bf.bits.length) (hf : Beside f s) :
    ∃ s' f', readGolombCodesBs b xs.length s = some (xs, s') ∧ readGolombCodesBf b xs.length f = some (xs, f') ∧
      s'.HasRead data (writeGolombCodes b xs bf).bits.length ∧ Beside f' s' := by
  have hbits := writeGolombCodes_bits hb xs hbf
  set codes := xs.flatMap fun x => golombBits x b with hcodes
  have hdrop : (bytesBits data).drop bf.bits.length = codes ++ tl := by
    rw [hdata, hbits, append_assoc, drop_left]
  have hlen : bf.bits.length + codes.length ≤ 8 * data.length := by
    have := congrArg List.length hdata
    rw [bytesBits_length, hbits, length_append, length_append] at this
    omega
  obtain ⟨s', hread, hat⟩ := readGolombCodesBs_at hb xs (hdrop ▸ hs.stands)
  obtain ⟨f', hread', hbeside⟩ := readGolombCodesBf_beside xs.length hf hread
  refine ⟨s', f', hread, hread', ?_, hbeside⟩
  rw [hbits, length_append]
  exact hasRead_of_at hdrop hat hlen (hat.base_eq ▸ hbeside.position_le)

/-- `write_golomb_code` and the two readers. The bits before the codes and those behind them are arbitrary. -/
theorem readGolombCodes_writeGolombCodes {b : ℕ} (hb : GolombParam b) (xs : List ℕ) {bf : BFile} (hbf : bf.Ok)
    {data : List ℕ} {tl : List Bool} (hdata : bytesBits data = (writeGolombCodes b xs bf).bits ++ tl) :
    (∀ f : BFileReader, f.HasRead data bf.bits.length →
      ∃ f', readGolombCodesBf b xs.length f = some (xs, f') ∧ f'.HasRead data (writeGolombCodes b xs bf).bits.length) ∧
    ∀ s : BStream, s.HasRead data bf.bits.length →
      ∃ s', readGolombCodesBs b xs.length s = some (xs, s') ∧ s'.HasRead data (writeGolombCodes b xs bf).bits.length := by
  refine ⟨?_, ?_⟩
  · rintro f ⟨s, hs, hf⟩
    obtain ⟨s', f', -, hread, hs', hf'⟩ := readGolombCodes_beside hb xs hbf hdata hs hf
    exact ⟨f', hread, s', hs', hf'⟩
  · intro s hs
    have hn : bf.bits.length ≤ 8 * data.length := by
      have := congrArg List.length hdata
      rw [bytesBits_length, writeGolombCodes_bits hb xs hbf, length_append, length_append] at this
      omega
    have hpos : s.position ≤ s.base.length := by
      rw [hs.stands.base_eq]
      exact hs.position_le hn
    -- a file that was read up to the same bit
    obtain ⟨s', -, hread, -, hs', -⟩ := readGolombCodes_beside hb xs hbf hdata hs
      (f := ⟨s.base.drop s.position, s.buf, s.bitsInBuf, s.position⟩) ⟨rfl, rfl, rfl, rfl, hpos⟩
    exact ⟨s', hread, hs'⟩

/-- Three bits, three codes and the padding of `BFclose`; both readers have read the three bits. -/
theorem readGolombCodes_writeGolombCodes_five :
    (∃ f', readGolombCodesBf 5 3 { fd := [62, 224], buf := 160, bitsInBuf := 5, position := 1 } = some ([7, 0, 29], f') ∧
      f'.HasRead [180, 62, 224] 19) ∧
    ∃ s', readGolombCodesBs 5 3 { base := [180, 62, 224], buf := 160, bitsInBuf := 5, position := 1 } =
      some ([7, 0, 29], s') ∧ s'.HasRead [180, 62, 224] 19 := by
  have hdata : bytesBits [180, 62, 224] =
      (writeGolombCodes 5 [7, 0, 29] (bfWrite 5 3 {})).bits ++ replicate 5 false := by decide
  have hs : BStream.HasRead [180, 62, 224] 3 { base := [180, 62, 224], buf := 160, bitsInBuf := 5, position := 1 } :=
    ⟨⟨rfl, by decide, by decide⟩, by decide⟩
  obtain ⟨hbf, hbs⟩ := readGolombCodes_writeGolombCodes ⟨by decide, by decide⟩ [7, 0, 29] (bfWrite_ok ok_empty 5 3) hdata
  exact ⟨hbf _ ⟨_, hs, rfl, rfl, rfl, rfl, by decide⟩, hbs _ hs⟩

end CWB
