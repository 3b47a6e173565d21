import CWB.Proofs.HuffmanOptimal
import CWB.Proofs.Makecomps
import CWB.Sanity.BitIO

/-! Random access to the compressed token stream. The code lengths make a complete canonical
code, so that the decoding loop stops exactly at the end of each code word; every sync offset
leads to the code words of its block; and whatever block is in the cache, it is a block of the
token stream. -/

namespace CWB

open Nat Option List Bits CanonicalCode

/-- The descriptor block describes the code words `code`, of the lengths `cl`. -/
structure Describes (hc : HCD) (size : ℕ) (cl code : ℕ → ℕ) (first : ℕ → ℕ) : Prop where
  length_pos : ∀ i < size, 1 ≤ cl i ∧ cl i < MAXCODELEN
  minCode_eq : ∀ l < MAXCODELEN, hc.minCode[l]? = some (first l)
  code_lt : ∀ i < size, code i < 2 ^ cl i
  first_le : ∀ i < size, first (cl i) ≤ code i
  beginning : ∀ i < size, ∀ l d, 1 ≤ l → l + (d + 1) = cl i → code i / 2 ^ (d + 1) < first l
  symbol : ∀ i < size, ∃ x, hc.symindex[cl i]? = some x ∧ hc.symbols[x + code i - first (cl i)]? = some i

variable {i : ℕ} {bs : BStream}

section Decode

variable {hc : HCD} {size : ℕ} {cl code first : ℕ → ℕ} {base : List ℕ} {bits : List Bool}

/-- The loop stops when it has read the whole code word. -/
theorem decodeLoop_spec (hd : Describes hc size cl code first) (hi : i < size) {d l : ℕ} (fuel : ℕ)
    (hl : 1 ≤ l) (hld : l + d = cl i) (hfuel : d < fuel) (hat : bs.At base (natBits d (code i) ++ bits)) :
    ∃ bs', decodeLoop hc fuel (code i / 2 ^ d) l bs = some (code i, cl i, bs') ∧ bs'.At base bits := by
  have hlt := (hd.length_pos i hi).2
  induction d generalizing l fuel bs with
  | zero =>
    obtain ⟨fuel, rfl⟩ : ∃ k, fuel = k + 1 := ⟨fuel - 1, by omega⟩
    obtain rfl : l = cl i := by omega
    refine ⟨bs, ?_, by simpa using hat⟩
    have hge := hd.first_le i hi
    simp only [decodeLoop, hd.minCode_eq _ hlt, bind_eq_bind, bind_some, pow_zero, Nat.div_one]
    rw [if_neg (by omega)]
  | succ d ih =>
    obtain ⟨fuel, rfl⟩ : ∃ k, fuel = k + 1 := ⟨fuel - 1, by omega⟩
    rw [natBits_succ, cons_append] at hat
    obtain ⟨bs1, hread, hat1⟩ := bsRead_one hat
    obtain ⟨bs', hloop, hat'⟩ := ih (l := l + 1) fuel (by omega) (by omega) (by omega) hat1
    refine ⟨bs', ?_, hat'⟩
    have hbit : (if ((code i).testBit d).toNat ≠ 0 then 1 else 0) = ((code i).testBit d).toNat := by
      cases (code i).testBit d <;> rfl
    simp only [decodeLoop, hd.minCode_eq l (by omega), bind_eq_bind, bind_some, hread]
    rw [if_pos (hd.beginning i hi l d hl (by omega)), hbit, div_two_pow_succ, hloop]

/-- After its first bit the code word is read by the loop, and nothing of what follows. -/
theorem decodeLoop_whole (hd : Describes hc size cl code first) (hi : i < size)
    (hat : bs.At base (natBits (cl i) (code i) ++ bits)) :
    ∃ bit bs₁ bs', bsRead 1 bs = some (bit, bs₁) ∧
      decodeLoop hc MAXCODELEN (if bit ≠ 0 then 1 else 0) 1 bs₁ = some (code i, cl i, bs') ∧ bs'.At base bits := by
  obtain ⟨h1, hlt⟩ := hd.length_pos i hi
  obtain ⟨d, hd1⟩ : ∃ d, cl i = d + 1 := ⟨cl i - 1, by omega⟩
  rw [hd1, natBits_succ, cons_append] at hat
  obtain ⟨bs1, hread, hat1⟩ := bsRead_one hat
  obtain ⟨bs', hloop, hat'⟩ := decodeLoop_spec hd hi MAXCODELEN le_rfl (by omega) (by omega) hat1
  have hbit : (if ((code i).testBit d).toNat ≠ 0 then 1 else 0) = code i / 2 ^ d := by
    have hzero : code i / 2 ^ (d + 1) = 0 := div_eq_of_lt (hd1 ▸ hd.code_lt i hi)
    have := div_two_pow_succ (code i) d
    rw [hzero] at this
    cases hb : (code i).testBit d <;> rw [hb] at this <;> simpa using this
  refine ⟨_, bs1, bs', hread, ?_, hat'⟩
  rw [hbit]
  exact hloop

theorem decodeItem_eq (hd : Describes hc size cl code first) (hi : i < size) {bs₁ bs' : BStream} {bit : ℕ}
    (hread : bsRead 1 bs = some (bit, bs₁))
    (hloop : decodeLoop hc MAXCODELEN (if bit ≠ 0 then 1 else 0) 1 bs₁ = some (code i, cl i, bs')) :
    decodeItem hc bs = some (i, bs') := by
  obtain ⟨x, hx, hsymbol⟩ := hd.symbol i hi
  simp only [decodeItem, hread, bind_eq_bind, bind_some]
  rw [hloop]
  simp only [bind_some, hx, hd.minCode_eq _ (hd.length_pos i hi).2, hsymbol]

theorem decodeItem_spec (hd : Describes hc size cl code first) (hi : i < size)
    (hat : bs.At base (natBits (cl i) (code i) ++ bits)) :
    ∃ bs', decodeItem hc bs = some (i, bs') ∧ bs'.At base bits := by
  obtain ⟨bit, bs₁, bs', hread, hloop, hat'⟩ := decodeLoop_whole hd hi hat
  exact ⟨bs', decodeItem_eq hd hi hread hloop, hat'⟩

/-- The code words of the tokens, one after the other. -/
def encoded (cl code : ℕ → ℕ) (ids : List ℕ) : List Bool := ids.flatMap fun id => natBits (cl id) (code id)

/-- A block of tokens is decoded into the first cells of the buffer. -/
theorem decodeBlock_spec (hd : Describes hc size cl code first) {block buffer : List ℕ} (hids : ∀ id ∈ block, id < size)
    (hlen : block.length ≤ buffer.length) (hat : bs.At base (encoded cl code block ++ bits)) {m : ℕ}
    (hm : m ≤ block.length) :
    ∃ s, (range m).foldlM (decodeRound hc) (buffer, bs) = some s ∧
      s.2.At base (encoded cl code (block.drop m) ++ bits) ∧ s.1.length = buffer.length ∧ ∀ j < m, s.1[j]? = block[j]? := by
  induction m with
  | zero => exact ⟨(buffer, bs), rfl, by simpa using hat, rfl, fun j hj => by omega⟩
  | succ m ih =>
    obtain ⟨s, hfold, hats, hslen, hcells⟩ := ih (by omega)
    have hlt : m < block.length := hm
    rw [drop_eq_getElem_cons hlt, encoded, flatMap_cons, append_assoc] at hats
    obtain ⟨bs', hitem, hat'⟩ := decodeItem_spec hd (hids _ (getElem_mem hlt)) hats
    refine ⟨(s.1.set m block[m], bs'), ?_, hat', by rw [length_set, hslen], ?_⟩
    · rw [range_succ, foldlM_append, hfold]
      simp [decodeRound, hitem]
    · intro j hj
      by_cases h : j = m
      · subst h
        rw [getElem?_set_self (by omega), getElem?_eq_getElem hlt]
      · rw [getElem?_set_ne (Ne.symm h)]
        exact hcells j (by omega)

end Decode

variable {b : ℕ}

section Encode

variable {cl : ℕ → ℕ} {code : Cells}

/-- The tokens of a block. -/
def blockIds (ids : List ℕ) (b : ℕ) : List ℕ := (ids.drop (b * SYNCHRONIZATION)).take SYNCHRONIZATION

variable {ids : List ℕ}

theorem blockIds_append_of_full {x : ℕ} (h : (b + 1) * SYNCHRONIZATION ≤ ids.length) :
    blockIds (ids ++ [x]) b = blockIds ids b := by
  simp only [blockIds, SYNCHRONIZATION] at h ⊢
  rw [drop_append_of_le_length (by omega), take_append_of_le_length (by rw [length_drop]; omega)]

theorem blockIds_append_of_open {x : ℕ} (hle : b * SYNCHRONIZATION ≤ ids.length)
    (hlt : ids.length < (b + 1) * SYNCHRONIZATION) : blockIds (ids ++ [x]) b = blockIds ids b ++ [x] := by
  simp only [blockIds, SYNCHRONIZATION] at hle hlt ⊢
  have hlen : (ids.drop (b * 128)).length < 128 := by
    rw [length_drop]
    omega
  rw [drop_append_of_le_length hle, take_of_length_le (by rw [length_append, length_singleton]; omega),
    take_of_length_le hlen.le]

/-- What the encoding loop has written for the tokens so far: one offset for each block begun, and
behind it the code words of the block, nothing else following those of the last block. -/
structure Encoded (cl : ℕ → ℕ) (code : Cells) (ids : List ℕ) (s : BFile × List ℕ) : Prop where
  ok : s.1.Ok
  syn_length : s.2.length = (ids.length + (SYNCHRONIZATION - 1)) / SYNCHRONIZATION
  block : ∀ b, b * SYNCHRONIZATION < ids.length → ∃ offset rest, s.2[b]? = some offset ∧ 8 * offset ≤ s.1.bits.length ∧
    s.1.bits.drop (8 * offset) = encoded cl code (blockIds ids b) ++ rest ∧
    (ids.length < (b + 1) * SYNCHRONIZATION → rest = [])

theorem encoded_singleton (id : ℕ) : encoded cl code [id] = natBits (cl id) (code id) := by simp [encoded]

/-- More bits behind leave the blocks that are complete. -/
theorem Encoded.extend {s : BFile × List ℕ} (he : Encoded cl code ids s) {f : BFile} (syn : List ℕ)
    {more : List Bool} (hbits : f.bits = s.1.bits ++ more) {x : ℕ} (hb : (b + 1) * SYNCHRONIZATION ≤ ids.length) :
    ∃ offset rest, (s.2 ++ syn)[b]? = some offset ∧ 8 * offset ≤ f.bits.length ∧
      f.bits.drop (8 * offset) = encoded cl code (blockIds (ids ++ [x]) b) ++ rest ∧
      ((ids ++ [x]).length < (b + 1) * SYNCHRONIZATION → rest = []) := by
  obtain ⟨offset, rest, hsyn, hle, hdrop, -⟩ := he.block b (by simp only [SYNCHRONIZATION] at *; omega)
  refine ⟨offset, rest ++ more, ?_, ?_, ?_, fun h => ?_⟩
  · rw [getElem?_append_left (List.getElem?_eq_some_iff.mp hsyn).1, hsyn]
  · rw [hbits, length_append]
    omega
  · rw [hbits, drop_append_of_le_length hle, hdrop, blockIds_append_of_full hb, append_assoc]
  · rw [length_append] at h
    simp only [SYNCHRONIZATION] at *
    omega

theorem encodeToken_spec {s : BFile × List ℕ} (he : Encoded cl code ids s) {x : ℕ} (hx : cl x ≤ 32)
    (hempty : ids = [] → s.1.bits = []) : Encoded cl code (ids ++ [x]) (encodeToken cl code s (x, ids.length)) := by
  have hsyn := he.syn_length
  by_cases hsync : ids.length % SYNCHRONIZATION = 0
  · -- a new block begins at the next byte
    obtain ⟨f, pad, hf, hok, hbits, haligned, htoken⟩ : ∃ (f : BFile) (pad : List Bool),
        f = (if ids.length > 0 then bfFlush s.1 else s.1) ∧ f.Ok ∧ f.bits = s.1.bits ++ pad ∧
        f.bits.length = 8 * bfPosition f ∧
        encodeToken cl code s (x, ids.length) = (bfWriteWord (code x) (cl x) f, s.2 ++ [bfPosition f]) := by
      by_cases h0 : ids.length > 0
      · obtain ⟨k, hk⟩ := bfFlush_bits _
        refine ⟨bfFlush s.1, replicate k false, by rw [if_pos h0], bfFlush_ok he.ok, hk,
          bits_length_of_aligned (bfFlush_ok he.ok) (bfFlush_aligned he.ok), ?_⟩
        simp only [encodeToken, if_pos hsync, if_pos h0]
      · have hnil : ids = [] := length_eq_zero_iff.mp (by omega)
        have hzero : s.1.bits.length = 0 := by rw [hempty hnil]; rfl
        have hinbuf : s.1.bitsInBuf = 0 := by
          rw [BFile.bits, length_append, natBits_length] at hzero
          omega
        refine ⟨s.1, [], by rw [if_neg h0], he.ok, (append_nil _).symm, bits_length_of_aligned he.ok hinbuf, ?_⟩
        simp only [encodeToken, if_pos hsync, if_neg h0]
    rw [htoken]
    have hwrite : (bfWriteWord (code x) (cl x) f).bits = f.bits ++ natBits (cl x) (code x) := bfWriteWord_bits hok _ hx
    refine ⟨bfWriteWord_ok hok _ _, ?_, ?_⟩
    · simp only [length_append, length_singleton, hsyn]
      simp only [SYNCHRONIZATION] at hsync ⊢
      omega
    · intro b hb
      rw [length_append, length_singleton] at hb
      by_cases hlast : b * SYNCHRONIZATION = ids.length
      · refine ⟨bfPosition f, [], ?_, ?_, ?_, fun _ => rfl⟩
        · have hb0 : s.2.length = b := by
            rw [hsyn]
            simp only [SYNCHRONIZATION] at hlast ⊢
            omega
          rw [getElem?_append_right hb0.le, hb0, Nat.sub_self]
          rfl
        · rw [hwrite, length_append]
          omega
        · rw [hwrite, ← haligned, drop_left, append_nil,
            blockIds_append_of_open hlast.le (by simp only [SYNCHRONIZATION] at *; omega), blockIds, hlast, drop_length, take_nil,
            nil_append, encoded_singleton]
      · apply he.extend _ (by rw [hwrite, hbits, append_assoc])
        simp only [SYNCHRONIZATION] at *
        omega
  · have htoken : encodeToken cl code s (x, ids.length) = (bfWriteWord (code x) (cl x) s.1, s.2) := by
      simp only [encodeToken, if_neg hsync]
    rw [htoken]
    have hwrite : (bfWriteWord (code x) (cl x) s.1).bits = s.1.bits ++ natBits (cl x) (code x) :=
      bfWriteWord_bits he.ok _ hx
    refine ⟨bfWriteWord_ok he.ok _ _, ?_, ?_⟩
    · simp only [length_append, length_singleton, hsyn]
      simp only [SYNCHRONIZATION] at hsync ⊢
      omega
    · intro b hb
      rw [length_append, length_singleton] at hb
      by_cases hopen : ids.length < (b + 1) * SYNCHRONIZATION
      · obtain ⟨offset, rest, hget, hle, hdrop, hrest⟩ := he.block b (by simp only [SYNCHRONIZATION] at *; omega)
        rw [hrest hopen, append_nil] at hdrop
        refine ⟨offset, [], hget, ?_, ?_, fun _ => rfl⟩
        · rw [hwrite, length_append]
          omega
        · rw [hwrite, drop_append_of_le_length hle, hdrop, blockIds_append_of_open (Nat.lt_succ_iff.mp hb) hopen, append_nil,
            encoded, encoded, flatMap_append]
          simp
      · have h := he.extend [] (x := x) hwrite (not_lt.mp hopen)
        rwa [append_nil] at h

theorem encode_spec (ids : List ℕ) (hcl : ∀ id ∈ ids, cl id ≤ 32) :
    Encoded cl code ids (ids.zipIdx.foldl (encodeToken cl code) ({}, [])) ∧
      (ids = [] → (ids.zipIdx.foldl (encodeToken cl code) ({}, [])).1.bits = []) := by
  induction ids using reverseRecOn with
  | nil =>
    refine ⟨⟨ok_empty, rfl, fun b hb => ?_⟩, fun _ => rfl⟩
    exact absurd hb (Nat.not_lt_zero _)
  | append_singleton ids x ih =>
    obtain ⟨he, hempty⟩ := ih fun id hid => hcl id (mem_append_left _ hid)
    refine ⟨?_, fun h => absurd h (by simp)⟩
    rw [zipIdx_append, foldl_append]
    simp only [zipIdx_singleton, foldl_cons, foldl_nil, Nat.zero_add]
    exact encodeToken_spec he (hcl x (by simp)) hempty

/-- The files: every block can be read from its offset on. -/
theorem file_block (hcl : ∀ id ∈ ids, cl id ≤ 32) (hb : b * SYNCHRONIZATION < ids.length) :
    ∃ offset rest, (ids.zipIdx.foldl (encodeToken cl code) ({}, [])).2[b]? = some offset ∧
      (bytesBits (bfFlush (ids.zipIdx.foldl (encodeToken cl code) ({}, [])).1).fd).drop (8 * offset) =
        encoded cl code (blockIds ids b) ++ rest := by
  have he : Encoded cl code ids _ := (encode_spec ids hcl).1
  obtain ⟨offset, rest, hget, hle, hdrop, -⟩ := he.block b hb
  obtain ⟨k, hk⟩ := bfFlush_bits _
  refine ⟨offset, rest ++ replicate k false, hget, ?_⟩
  rw [bytesBits_fd_of_aligned (bfFlush_aligned he.ok), hk, drop_append_of_le_length hle, hdrop, append_assoc]

end Encode

section Access

/-- The files of a token stream: the descriptor block, and for each block of tokens its offset. -/
structure Serves (files : HuffFiles) (ids : List ℕ) (size : ℕ) (cl code first : ℕ → ℕ) : Prop where
  length_eq : (loadHCD files.hcd).length = ids.length
  describes : Describes (loadHCD files.hcd) size cl code first
  id_lt : ∀ id ∈ ids, id < size
  block : ∀ b, b * SYNCHRONIZATION < ids.length → ∃ offset rest, files.syn[b]? = some offset ∧
    (bytesBits files.huf).drop (8 * offset) = encoded cl code (blockIds ids b) ++ rest

/-- `cl_cpos2id` on the uncompressed token stream. -/
def directAccess (ids : List ℕ) (position : ℤ) : Except CdaStatus ℕ :=
  if position ≥ 0 then
    match ids[position.toNat]? with
    | some id => .ok id
    | none => .error .eposorng
  else .error .eposorng

/-- The cache holds no block, or one of the token stream. -/
def BlockCache.Holds (cache : BlockCache) (ids : List ℕ) : Prop :=
  cache.thisBlock.length = SYNCHRONIZATION ∧ (cache.thisBlockNr = -1 ∨ ∃ b : ℕ, cache.thisBlockNr = b ∧
    ∀ j < SYNCHRONIZATION, b * SYNCHRONIZATION + j < ids.length →
      cache.thisBlock[j]? = ids[b * SYNCHRONIZATION + j]?)

variable {files : HuffFiles} {ids : List ℕ} {size : ℕ} {cl code first : ℕ → ℕ}

theorem blockIds_getElem? {j : ℕ} (hj : j < SYNCHRONIZATION) : (blockIds ids b)[j]? = ids[b * SYNCHRONIZATION + j]? := by
  rw [blockIds, getElem?_take_of_lt hj, getElem?_drop]

/-- A block that is not in the cache is decoded into it. -/
theorem decode_into_cache (hs : Serves files ids size cl code first) (hb : b * SYNCHRONIZATION < ids.length)
    {buffer : List ℕ} (hbuf : buffer.length = SYNCHRONIZATION) :
    ∃ offset s, files.syn[b]? = some offset ∧
      (range (if ids.length - b * SYNCHRONIZATION > SYNCHRONIZATION then SYNCHRONIZATION
          else ids.length - b * SYNCHRONIZATION)).foldlM (decodeRound (loadHCD files.hcd))
        (buffer, bsSeek (bsOpen files.huf) offset) = some s ∧
      s.1.length = SYNCHRONIZATION ∧ ∀ j < SYNCHRONIZATION, b * SYNCHRONIZATION + j < ids.length →
        s.1[j]? = ids[b * SYNCHRONIZATION + j]? := by
  obtain ⟨offset, rest, hsyn, hdrop⟩ := hs.block b hb
  have hat := bsSeek_at files.huf offset
  rw [hdrop] at hat
  have hlen : (blockIds ids b).length = if ids.length - b * SYNCHRONIZATION > SYNCHRONIZATION then SYNCHRONIZATION
      else ids.length - b * SYNCHRONIZATION := by
    rw [blockIds, length_take, length_drop]
    split_ifs <;> omega
  have hle : (blockIds ids b).length ≤ buffer.length := by
    rw [blockIds, length_take, hbuf]
    omega
  have hids : ∀ id ∈ blockIds ids b, id < size := fun id hid =>
    hs.id_lt id (mem_of_mem_drop (mem_of_mem_take hid))
  obtain ⟨s, hfold, -, hslen, hcells⟩ := decodeBlock_spec hs.describes hids hle hat le_rfl
  refine ⟨offset, s, hsyn, hlen ▸ hfold, hslen.trans hbuf, fun j hj hlt => ?_⟩
  rw [hcells j ?_, blockIds_getElem? hj]
  rw [blockIds, length_take, length_drop]
  omega

/-- Every call returns the token's ID and leaves a block of the token stream in the cache. -/
theorem clCpos2id_spec (hs : Serves files ids size cl code first) {cache : BlockCache} (hc : cache.Holds ids) (position : ℤ) :
    ∃ cache', clCpos2id files cache position = some (directAccess ids position, cache') ∧ cache'.Holds ids := by
  unfold clCpos2id directAccess
  simp only [hs.length_eq]
  by_cases hpos : position ≥ 0 ∧ position < ids.length
  · obtain ⟨p, rfl⟩ : ∃ p : ℕ, position = p := ⟨position.toNat, by omega⟩
    have hp : p < ids.length := by omega
    have hdiv : p / SYNCHRONIZATION * SYNCHRONIZATION + p % SYNCHRONIZATION = p := div_add_mod' p SYNCHRONIZATION
    have hmod : p % SYNCHRONIZATION < SYNCHRONIZATION := mod_lt p (by decide)
    rw [if_pos hpos, if_pos hpos.1, Int.toNat_natCast, getElem?_eq_getElem hp]
    by_cases hmiss : cache.thisBlockNr ≠ (p / SYNCHRONIZATION : ℕ)
    · obtain ⟨offset, s, hsyn, hfold, hlen, hcells⟩ :=
        decode_into_cache hs (show p / SYNCHRONIZATION * SYNCHRONIZATION < ids.length by omega) hc.1
      refine ⟨{ thisBlockNr := (p / SYNCHRONIZATION : ℕ), thisBlock := s.1 }, ?_, hlen, .inr ⟨_, rfl, hcells⟩⟩
      have hcell := hcells _ hmod (by omega)
      rw [hdiv, getElem?_eq_getElem hp] at hcell
      simp only [if_pos hmiss, hsyn, bind_eq_bind, bind_some, hfold, hcell]
    · obtain ⟨hlen, hnone | ⟨b, hb, hcells⟩⟩ := hc
      · have hnonneg := Int.natCast_nonneg (p / SYNCHRONIZATION)
        rw [← not_not.mp hmiss, hnone] at hnonneg
        exact absurd hnonneg (by decide)
      · have hcell := hcells _ hmod
        obtain rfl : b = p / SYNCHRONIZATION := by
          have := hb.symm.trans (not_not.mp hmiss)
          omega
        rw [hdiv, getElem?_eq_getElem hp] at hcell
        refine ⟨cache, ?_, hlen, .inr ⟨_, hb, hcells⟩⟩
        simp only [if_neg hmiss, bind_eq_bind, bind_some, hcell hp]
  · refine ⟨cache, ?_, hc⟩
    rw [if_neg hpos]
    by_cases h0 : position ≥ 0
    · rw [if_pos h0, getElem?_eq_none (by omega)]
    · rw [if_neg h0]

theorem accessAll_spec (hs : Serves files ids size cl code first) {cache : BlockCache} (hc : cache.Holds ids)
    (positions : List ℤ) : accessAll files cache positions = some (positions.map (directAccess ids)) := by
  induction positions generalizing cache with
  | nil => rfl
  | cons position positions ih =>
    obtain ⟨cache', hcall, hc'⟩ := clCpos2id_spec hs hc position
    simp only [accessAll, hcall, bind_eq_bind, bind_some, ih hc', map_cons]

end Access

section Compression

variable {size : ℕ} {freq : ℕ → ℕ}

/-- The code lengths as the statistics see them. -/
theorem codelength_pos (i : ℕ) : 1 ≤ codelength size (depthCells size freq) i := by
  unfold codelength
  split_ifs <;> omega

theorem depth_one : depthCells 1 freq 1 = 0 := by
  have hkraft := kraft_depthCells (show 1 ≤ 1 from le_rfl) freq
  rw [Finset.sum_range_one] at hkraft
  by_contra hne
  have : (1 / 2 : ℚ) ^ depthCells 1 freq (0 + 1) < 1 := pow_lt_one₀ (by norm_num) (by norm_num) hne
  linarith

variable {cl : ℕ → ℕ}

/-- Kraft's equality in the words of the longest code. -/
theorem kraft_words {L : ℕ} (hle : ∀ i < size, cl i ≤ L)
    (hkraft : ∑ i ∈ Finset.range size, (1 / 2 : ℚ) ^ cl i = 1) : ∑ i ∈ Finset.range size, 2 ^ (L - cl i) = 2 ^ L := by
  have hterm : ∀ i ∈ Finset.range size, ((2 ^ (L - cl i) : ℕ) : ℚ) = 2 ^ L * (1 / 2) ^ cl i := by
    intro i hi
    push_cast
    rw [pow_sub₀ _ two_ne_zero (hle i (Finset.mem_range.mp hi)), one_div, inv_pow]
  have hcast : ((∑ i ∈ Finset.range size, 2 ^ (L - cl i) : ℕ) : ℚ) = ((2 ^ L : ℕ) : ℚ) := by
    rw [cast_sum, Finset.sum_congr rfl hterm, ← Finset.mul_sum, hkraft, mul_one]
    push_cast
    rfl
  exact_mod_cast hcast

/-- The least code words for lengths with Kraft's equality are those of a complete code, and so is
the single code of one bit. -/
theorem complete_of_lengths (hpos : ∀ i < size, 1 ≤ cl i)
    (hkraft : 2 ≤ size ∧ ∑ i ∈ Finset.range size, (1 / 2 : ℚ) ^ cl i = 1 ∨ size = 1 ∧ cl 0 = 1) :
    Complete (count size cl)
      (fillMinCode (statsUpTo cl size).lcount ((statsUpTo cl size).maxCodelen - 1) .zero) := by
  rcases hkraft with ⟨hsize, hkraft⟩ | ⟨rfl, hlen⟩
  · have hcl : ∀ i < size, 1 ≤ cl i ∧ cl i ≤ (statsUpTo cl size).maxCodelen := fun i hi => ⟨hpos i hi, le_maxCodelen hi⟩
    have hL : 1 ≤ (statsUpTo cl size).maxCodelen := (hpos 0 (by omega)).trans (hcl 0 (by omega)).2
    apply complete_of_kraft hL hcl (kraft_words (fun i hi => (hcl i hi).2) hkraft)
    · intro l hl
      rw [fillMinCode_above _ (by omega)]
      rfl
    · intro l h1 hl
      rw [fillMinCode_eq _ h1 (by omega), lcount_eq]
  · have hmax : (statsUpTo cl 1).maxCodelen = 1 := by
      rw [statsUpTo_succ]
      simp only [collectLength, hlen]
      rfl
    rw [hmax]
    constructor
    · exact (Nat.zero_add _).trans_le ((count_le _).trans one_le_two)
    · intro l h1
      have hnone : count 1 cl (l + 1) = 0 := by
        unfold CanonicalCode.count
        rw [count_succ, count_zero, if_neg (by rw [hlen]; omega)]
      rw [hnone]
      rfl

/-- The least code words that the program computes are those of a complete code. -/
theorem minCode_complete (hsize : 1 ≤ size) :
    Complete (count size (codelength size (depthCells size freq)))
      (fillMinCode (statsUpTo (codelength size (depthCells size freq)) size).lcount
        ((statsUpTo (codelength size (depthCells size freq)) size).maxCodelen - 1) .zero) := by
  apply complete_of_lengths fun i _ => codelength_pos i
  by_cases hone : size = 1
  · subst hone
    exact .inr ⟨rfl, if_pos depth_one⟩
  · refine .inl ⟨by omega, ?_⟩
    have hterm : ∀ i ∈ Finset.range size, (1 / 2 : ℚ) ^ codelength size (depthCells size freq) i =
        (1 / 2) ^ depthCells size freq (i + size) := by
      intro i hi
      rw [codelength_eq (by omega) (Finset.mem_range.mp hi)]
    rw [Finset.sum_congr rfl hterm]
    exact kraft_depthCells hsize freq

/-- The codes and symbols in the array at the end, and the descriptor block. -/
def finalIssue (size : ℕ) (cl : ℕ → ℕ) (depth : Cells) : Issue :=
  issueUpTo size cl (fillSymindex (statsUpTo cl size).lcount (statsUpTo cl size).minCodelen (statsUpTo cl size).maxCodelen)
    (fillMinCode (statsUpTo cl size).lcount ((statsUpTo cl size).maxCodelen - 1) .zero) depth size

def finalHCD (size length : ℕ) (cl : ℕ → ℕ) (depth : Cells) : HCD :=
  { size := size
    length := length
    minCodelen := (statsUpTo cl size).minCodelen
    maxCodelen := (statsUpTo cl size).maxCodelen
    lcount := (range MAXCODELEN).map (statsUpTo cl size).lcount
    symindex := (range MAXCODELEN).map
      (fillSymindex (statsUpTo cl size).lcount (statsUpTo cl size).minCodelen (statsUpTo cl size).maxCodelen)
    minCode := (range MAXCODELEN).map
      (fillMinCode (statsUpTo cl size).lcount ((statsUpTo cl size).maxCodelen - 1) .zero)
    symbols := (range size).map fun k => (finalIssue size cl depth).heap (size + k) }

theorem getElem?_map_range {f : ℕ → ℕ} {n : ℕ} (hi : i < n) : ((range n).map f)[i]? = some (f i) := by
  rw [getElem?_map, getElem?_range hi, map_some]

/-- The codes and the symbols that the last loop issues. -/
theorem finalIssue_heap (cl : ℕ → ℕ) (depth : Cells) (hi : i < size) :
    (finalIssue size cl depth).heap i =
        fillMinCode (statsUpTo cl size).lcount ((statsUpTo cl size).maxCodelen - 1) .zero (cl i) + rank cl i ∧
      (finalIssue size cl depth).heap (size + index size cl i) = i ∧
      fillSymindex (statsUpTo cl size).lcount (statsUpTo cl size).minCodelen (statsUpTo cl size).maxCodelen (cl i) =
        offset size cl (cl i) := by
  have hsym : ∀ i < size, fillSymindex (statsUpTo cl size).lcount (statsUpTo cl size).minCodelen
      (statsUpTo cl size).maxCodelen (cl i) = offset size cl (cl i) := fun i hi =>
    fillSymindex_eq (lcount_eq size) (fun _ => minCodelen_le) (minCodelen_le hi) (le_maxCodelen hi)
  obtain ⟨hcode, hsymbol⟩ := issue_heap hsym le_rfl i hi
  exact ⟨hcode, hsymbol, hsym i hi⟩

/-- The symbol of a place stands in the block. -/
theorem finalHCD_symbol (cl : ℕ → ℕ) (depth : Cells) (length : ℕ) (hi : i < size) :
    (finalHCD size length cl depth).symbols[offset size cl (cl i) + rank cl i]? = some i :=
  (getElem?_map_range (index_lt hi)).trans (congrArg some (finalIssue_heap cl depth hi).2.1)

theorem finalHCD_describes {depth : Cells} (length : ℕ) (hpos : ∀ i < size, 1 ≤ cl i ∧ cl i < MAXCODELEN)
    (hcomplete : Complete (count size cl)
      (fillMinCode (statsUpTo cl size).lcount ((statsUpTo cl size).maxCodelen - 1) .zero)) :
    Describes (finalHCD size length cl depth) size cl (finalIssue size cl depth).heap
      (fillMinCode (statsUpTo cl size).lcount ((statsUpTo cl size).maxCodelen - 1) .zero) := by
  have hcode := fun i (hi : i < size) => (finalIssue_heap cl depth hi).1
  refine ⟨hpos, fun l hl => getElem?_map_range hl, ?_, ?_, ?_, ?_⟩
  · intro i hi
    rw [hcode i hi]
    have := rank_lt size cl hi
    exact hcomplete.lt_two_pow (hpos i hi).1 (by omega)
  · intro i hi
    rw [hcode i hi]
    exact Nat.le_add_right _ _
  · intro i hi l d h1 hld
    rw [hcode i hi]
    have := rank_lt size cl hi
    apply hcomplete.beginning_lt h1
    rw [hld]
    omega
  · intro i hi
    refine ⟨_, getElem?_map_range (hpos i hi).2, ?_⟩
    rw [(finalIssue_heap cl depth hi).2.2, hcode i hi, Nat.add_left_comm, Nat.add_sub_cancel_left]
    exact finalHCD_symbol cl depth length hi

/-- No code word is the beginning of another. -/
theorem Describes.prefixCode {hc : HCD} {code first : ℕ → ℕ} (hd : Describes hc size cl code first)
    (hinj : ∀ i < size, ∀ j < size, cl i = cl j → code i = code j → i = j) :
    Huffman.PrefixCode size fun i => natBits (cl i) (code i) := by
  intro i hi j hj hne hprefix
  dsimp only at hprefix
  have hle : cl i ≤ cl j := by simpa using hprefix.length_le
  obtain ⟨d, hlen⟩ : ∃ d, cl j = cl i + d := ⟨cl j - cl i, by omega⟩
  have hbits : natBits (cl i) (code i) = natBits (cl i) (code j / 2 ^ d) := by
    rw [hlen, natBits_add] at hprefix
    have hshort := prefix_of_prefix_length_le hprefix (prefix_append _ _) (by simp)
    exact hshort.eq_of_length (by simp)
  have hupper : code j / 2 ^ d < 2 ^ cl i := by
    rw [Nat.div_lt_iff_lt_mul (Nat.two_pow_pos d), ← pow_add, ← hlen]
    exact hd.code_lt j hj
  have hcode : code i = code j / 2 ^ d := by
    rw [← ofBits_natBits (hd.code_lt i hi), hbits, ofBits_natBits hupper]
  cases d with
  | zero => exact hne (hinj i hi j hj hlen.symm (by simpa using hcode))
  | succ d =>
    -- a proper beginning of a code word is an inner node
    have hinner := hd.beginning j hj (cl i) d (hd.length_pos i hi).1 hlen.symm
    have hfirst := hd.first_le i hi
    omega

/-- Codes of the lengths `cl` are assigned so that those of one length are consecutive and belong to the
symbols of that length in order; none is the beginning of another, and the decoding loop stops
at the end of the code word, whatever follows. -/
theorem finalHCD_canonical {cl : ℕ → ℕ} (depth : Cells) (length : ℕ) (hlen : ∀ i < size, 1 ≤ cl i ∧ cl i < MAXCODELEN)
    (hkraft : 2 ≤ size ∧ ∑ i ∈ Finset.range size, (1 / 2 : ℚ) ^ cl i = 1 ∨ size = 1 ∧ cl 0 = 1) :
    (∀ i < size, ∃ minCode symindex, (finalHCD size length cl depth).minCode[cl i]? = some minCode ∧
      (finalHCD size length cl depth).symindex[cl i]? = some symindex ∧
      (finalIssue size cl depth).heap i = minCode + rank cl i ∧
      (finalHCD size length cl depth).symbols[symindex + rank cl i]? = some i) ∧
    Huffman.PrefixCode size (fun i => natBits (cl i) ((finalIssue size cl depth).heap i)) ∧
    ∀ i < size, ∀ (bs : BStream) base bits, bs.At base (natBits (cl i) ((finalIssue size cl depth).heap i) ++ bits) →
      ∃ bit bs₁ bs', bsRead 1 bs = some (bit, bs₁) ∧
        decodeLoop (finalHCD size length cl depth) MAXCODELEN (if bit ≠ 0 then 1 else 0) 1 bs₁ =
          some ((finalIssue size cl depth).heap i, cl i, bs') ∧
        bs'.At base bits ∧ decodeItem (finalHCD size length cl depth) bs = some (i, bs') := by
  have hd : Describes (finalHCD size length cl depth) size cl (finalIssue size cl depth).heap _ :=
    finalHCD_describes length hlen (complete_of_lengths (fun i hi => (hlen i hi).1) hkraft)
  refine ⟨fun i hi => ?_, ?_, ?_⟩
  · obtain ⟨hcode, -, hsym⟩ := finalIssue_heap cl depth hi
    refine ⟨_, _, hd.minCode_eq _ (hlen i hi).2, getElem?_map_range (hlen i hi).2, hcode, ?_⟩
    rw [hsym]
    exact finalHCD_symbol cl depth length hi
  · apply hd.prefixCode
    intro i hi j hj hsame heq
    rw [(finalIssue_heap cl depth hi).1, (finalIssue_heap cl depth hj).1, hsame, Nat.add_left_cancel_iff] at heq
    refine index_inj hi hj (show index size cl i = index size cl j from ?_)
    rw [index, index, hsame, heq]
  · intro i hi bs base bits hat
    obtain ⟨bit, bs₁, bs', hread, hloop, hat'⟩ := decodeLoop_whole hd hi hat
    exact ⟨bit, bs₁, bs', hread, hloop, hat', decodeItem_eq hd hi hread hloop⟩

/-- Lengths with a gap: no code of two bits. -/
theorem finalHCD_canonical_gap :
    (∀ i < 5, [1, 3, 3, 3, 3].getD i 0 < MAXCODELEN) ∧
      Huffman.PrefixCode 5 (fun i => natBits ([1, 3, 3, 3, 3].getD i 0)
        ((finalIssue 5 (fun i => [1, 3, 3, 3, 3].getD i 0) .zero).heap i)) :=
  ⟨by decide, (finalHCD_canonical .zero 0 (by decide) (.inl ⟨by decide, by norm_num [Finset.sum_range_succ]⟩)).2.1⟩

/-- The depths and the code lengths for a frequency list. -/
def listDepths (freqs : List ℕ) : Cells := depthCells freqs.length fun i => freqs.getD i 0

def codeLengths (freqs : List ℕ) : ℕ → ℕ := codelength freqs.length (listDepths freqs)

/-- The encoded tokens with the sync offsets. -/
def encodedTokens (ids freqs : List ℕ) : BFile × List ℕ :=
  ids.zipIdx.foldl (encodeToken (codeLengths freqs) (finalIssue freqs.length (codeLengths freqs) (listDepths freqs)).heap) ({}, [])

theorem computeCodeLengths_eq {ids freqs : List ℕ} (hsize : 1 ≤ freqs.length) (hpos : 0 < ids.length)
    (hlen : ∀ i < freqs.length, codeLengths freqs i < MAXCODELEN) :
    computeCodeLengths ids freqs = some
      { hcd := writeHCD (finalHCD freqs.length ids.length (codeLengths freqs) (listDepths freqs))
        huf := (bfFlush (encodedTokens ids freqs).1).fd
        syn := (encodedTokens ids freqs).2 } := by
  have hcheck : ¬ ((range freqs.length).any (fun i => listDepths freqs (i + freqs.length) = 0) ∧ freqs.length ≠ 1) := by
    intro h
    obtain ⟨hany, hne⟩ := h
    obtain ⟨i, hi, hzero⟩ := any_eq_true.mp hany
    have hlen : codeLengths freqs i = listDepths freqs (i + freqs.length) :=
      codelength_eq (by omega) (mem_range.mp hi)
    have hone : 1 ≤ codeLengths freqs i := codelength_pos i
    rw [hlen, of_decide_eq_true hzero] at hone
    exact absurd hone (by decide)
  have hmax : ¬ (statsUpTo (codeLengths freqs) freqs.length).maxCodelen ≥ MAXCODELEN :=
    not_le.mpr (maxCodelen_lt (by decide) hlen)
  unfold computeCodeLengths
  rw [if_neg (by omega)]
  exact (if_neg hcheck).trans (if_neg hmax)

/-- The files serve the token stream whenever no code is too long. -/
theorem computeCodeLengths_serves {ids freqs : List ℕ} (hids : ids ≠ []) (hlt : ∀ id ∈ ids, id < freqs.length)
    (hlen : ∀ i < freqs.length, codeLengths freqs i < MAXCODELEN) :
    ∃ files code first, computeCodeLengths ids freqs = some files ∧
      Serves files ids freqs.length (codeLengths freqs) code first := by
  obtain ⟨id, hid⟩ := exists_mem_of_ne_nil ids hids
  have hsize : 1 ≤ freqs.length := (Nat.zero_le id).trans_lt (hlt id hid)
  have hload : loadHCD (writeHCD (finalHCD freqs.length ids.length (codeLengths freqs) (listDepths freqs))) =
      finalHCD freqs.length ids.length (codeLengths freqs) (listDepths freqs) :=
    loadHCD_writeHCD (by simp [finalHCD]) (by simp [finalHCD]) (by simp [finalHCD])
  refine ⟨_, (finalIssue freqs.length (codeLengths freqs) (listDepths freqs)).heap,
    fillMinCode (statsUpTo (codeLengths freqs) freqs.length).lcount
      ((statsUpTo (codeLengths freqs) freqs.length).maxCodelen - 1) .zero,
    computeCodeLengths_eq hsize (length_pos_of_mem hid) hlen, ?_, ?_, hlt, ?_⟩
  · rw [hload]
    rfl
  · rw [hload]
    exact finalHCD_describes ids.length (fun i hi => ⟨codelength_pos i, hlen i hi⟩) (minCode_complete hsize)
  · intro b hb
    exact file_block (fun id hid => (hlen id (hlt id hid)).le) hb

end Compression

end CWB
