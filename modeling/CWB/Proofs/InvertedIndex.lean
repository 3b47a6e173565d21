import CWB.Proofs.Golomb
import CWB.Proofs.Makecomps

/-! The compressed index answers as the plain one does. Both merges with the restrictor
list keep the positions in the union of its ranges, because a range that ends before
one position ends before all later ones, and the first range that does not decides. -/

namespace CWB

open Option List Bits

def RestrictorRange.covers (r : RestrictorRange) (cpos : ℕ) : Prop :=
  r.start.toInt ≤ cpos ∧ (cpos : ℤ) ≤ r.stop.toInt

instance (r : RestrictorRange) (cpos : ℕ) : Decidable (r.covers cpos) := inferInstanceAs (Decidable (_ ∧ _))

/-- The position lies in the union of the ranges. -/
def covered (restrictor : List RestrictorRange) (cpos : ℕ) : Bool := restrictor.any fun r => r.covers cpos

/-- A list of ranges in the corpus, sorted by start; they may nest, overlap or be empty. -/
structure RestrictorOk (restrictor : List RestrictorRange) : Prop where
  sorted : restrictor.Pairwise fun r r' => r.start.toInt ≤ r'.start.toInt
  start_nonneg : ∀ r ∈ restrictor, 0 ≤ r.start
  stop_nonneg : ∀ r ∈ restrictor, 0 ≤ r.stop

/-- The positions of `id` that an ideal index returns. -/
def occurrences (ids : List ℕ) (id : ℕ) (restrictor : List RestrictorRange) : List ℕ :=
  (positions ids id).filter fun cpos => restrictor.isEmpty || covered restrictor cpos

/-- The ideal answer: `NULL` and length 0 when there is no position. -/
def idealId2cpos (ids : List ℕ) (id : ℕ) (restrictor : List RestrictorRange) : Id2cpos :=
  { buffer := if occurrences ids id restrictor = [] then none else some (occurrences ids id restrictor)
    freq := some (occurrences ids id restrictor).length }

variable {res : List RestrictorRange}

theorem RestrictorOk.tail {r : RestrictorRange} (h : RestrictorOk (r :: res)) :
    RestrictorOk res :=
  ⟨(pairwise_cons.mp h.sorted).2, fun x hx => h.start_nonneg x (mem_cons_of_mem _ hx),
    fun x hx => h.stop_nonneg x (mem_cons_of_mem _ hx)⟩

theorem toUInt32_toNat {x : Int32} (h : 0 ≤ x) : (x.toUInt32.toNat : ℤ) = x.toInt := by
  have h0 : (0 : ℤ) ≤ x.toInt := Int32.le_iff_toInt_le.mp h
  rw [Int32.toNat_toUInt32_of_le h, Int32.toNatClampNeg]
  exact Int.toNat_of_nonneg h0

theorem covered_skip {r : RestrictorRange} {cpos : ℕ} (h : (cpos : ℤ) > r.stop.toInt) :
    covered (r :: res) cpos = covered res cpos := by
  have : ¬ r.covers cpos := fun hc => absurd hc.2 (by omega)
  simp [covered, this]

/-- The first range that does not end before the position decides. -/
theorem covered_first {r : RestrictorRange} (hok : RestrictorOk (r :: res)) {cpos : ℕ}
    (h : (cpos : ℤ) ≤ r.stop.toInt) : covered (r :: res) cpos = decide (r.start.toInt ≤ cpos) := by
  by_cases hs : r.start.toInt ≤ cpos
  · have : r.covers cpos := ⟨hs, h⟩
    simp [covered, this, hs]
  · have hno : ∀ x ∈ r :: res, ¬ x.covers cpos := by
      intro x hx hc
      rcases mem_cons.mp hx with rfl | hx
      · exact hs hc.1
      · have := (pairwise_cons.mp hok.sorted).1 x hx
        exact hs (le_trans this hc.1)
    rw [decide_eq_false hs, covered, List.any_eq_false]
    intro x hx
    simpa using hno x hx

/-! The gaps of a position list as bits. -/

def gapBits (b : ℕ) : ℕ → List ℕ → List Bool
  | _, [] => []
  | last, p :: ps => golombBits (p - last) b ++ gapBits b p ps

/-- Positions that can follow `last` in a gap-coded list. -/
def Ascending (last : ℕ) (ps : List ℕ) : Prop := (last :: ps).Pairwise (· ≤ ·)

theorem Ascending.head {last p : ℕ} {ps : List ℕ} (h : Ascending last (p :: ps)) : last ≤ p :=
  (pairwise_cons.mp h).1 p mem_cons_self

theorem Ascending.tail {last p : ℕ} {ps : List ℕ} (h : Ascending last (p :: ps)) : Ascending p ps :=
  (pairwise_cons.mp h).2

theorem positions_ascending (ids : List ℕ) (id : ℕ) : Ascending 0 (positions ids id) :=
  pairwise_cons.mpr ⟨fun _ _ => Nat.zero_le _, (positions_sorted ids id).imp le_of_lt⟩

/-! Position streams. -/

/-- The stream has yet to deliver `rest`. -/
def Delivers (ps : PositionStream) (rest : List ℕ) : Prop :=
  ps.idFreq = ps.nrItems + rest.length ∧
  if ps.isCompressed then
    GolombParam ps.b ∧ Ascending ps.lastPos rest ∧
      ∃ base tl, ps.bs.At base (gapBits ps.b ps.lastPos rest ++ tl)
  else rest <+: ps.base.drop ps.nrItems

variable {rest : List ℕ} {ps : PositionStream}

theorem readGaps_delivers (h : Delivers ps rest) (hc : ps.isCompressed = true) {n : ℕ} (hn : n ≤ rest.length) :
    ∃ ps', readGaps n ps = some (rest.take n, ps') ∧ Delivers ps' (rest.drop n) := by
  induction n generalizing ps rest with
  | zero => exact ⟨ps, rfl, h⟩
  | succ n ih =>
    cases rest with
    | nil => simp at hn
    | cons p rest =>
      obtain ⟨hfreq, hbits⟩ := h
      rw [if_pos hc] at hbits
      obtain ⟨hb, hasc, base, tl, hat⟩ := hbits
      rw [gapBits, append_assoc] at hat
      obtain ⟨bs, hread, hat'⟩ := readGolombCodeBs_at hb _ hat
      have hle := hasc.head
      have hpos : ps.lastPos + (p - ps.lastPos) = p := by omega
      have hnext : Delivers { ps with bs := bs, lastPos := p, nrItems := ps.nrItems + 1 } rest := by
        refine ⟨?_, ?_⟩
        · rw [length_cons] at hfreq
          simp only
          omega
        · rw [if_pos hc]
          exact ⟨hb, hasc.tail, base, tl, hat'⟩
      obtain ⟨ps', hrest, hdel⟩ := ih hnext hc (by simpa using hn)
      refine ⟨ps', ?_, hdel⟩
      rw [readGaps, hread]
      simp only [bind_eq_bind, bind_some, hpos]
      rw [hrest]
      rfl

theorem clReadStream_delivers (h : Delivers ps rest) (n : ℕ) :
    ∃ ps', clReadStream ps n = some (rest.take n, ps') ∧ Delivers ps' (rest.drop n) := by
  have hfreq := h.1
  unfold clReadStream
  by_cases hdone : ps.nrItems ≥ ps.idFreq
  · have hnil : rest = [] := length_eq_zero_iff.mp (by omega)
    subst hnil
    exact ⟨ps, by simp [hdone], by simpa using h⟩
  rw [if_neg hdone]
  -- the number of items to read is the length of the next chunk
  have hitems : (if ps.nrItems + n > ps.idFreq then ps.idFreq - ps.nrItems else n) = (rest.take n).length := by
    rw [length_take]
    split_ifs <;> omega
  simp only [hitems]
  have htake : rest.take (rest.take n).length = rest.take n := by
    rw [length_take, ← take_take, take_length]
  have hdrop : rest.drop (rest.take n).length = rest.drop n := by
    rcases Nat.le_total n rest.length with hle | hle
    · rw [length_take, min_eq_left hle]
    · rw [drop_eq_nil_of_le hle, take_of_length_le hle, drop_length]
  by_cases h0 : (rest.take n).length = 0
  · rw [if_pos h0]
    refine ⟨ps, by rw [length_eq_zero_iff.mp h0], ?_⟩
    rw [← hdrop, h0]
    exact h
  rw [if_neg h0]
  by_cases hc : ps.isCompressed
  · rw [if_pos hc]
    obtain ⟨ps', hread, hdel⟩ := readGaps_delivers h hc (n := (rest.take n).length)
      (by rw [length_take]; exact min_le_right _ _)
    rw [htake] at hread
    rw [hdrop] at hdel
    exact ⟨ps', hread, hdel⟩
  · rw [if_neg hc]
    obtain ⟨tl, htl⟩ : rest <+: ps.base.drop ps.nrItems := by simpa [hc] using h.2
    have hbuf : (ps.base.drop ps.nrItems).take (rest.take n).length = rest.take n := by
      rw [← htl, take_append_of_le_length (by rw [length_take]; exact min_le_right _ _), htake]
    rw [hbuf, if_pos rfl]
    refine ⟨_, rfl, ?_, ?_⟩
    · simp only [length_drop, hfreq, length_take]
      omega
    · rw [if_neg hc]
      refine ⟨tl, ?_⟩
      simp only
      rw [← drop_drop, ← htl, drop_append_of_le_length (by rw [length_take]; exact min_le_right _ _),
        hdrop]

theorem readChunks_delivers (h : Delivers ps rest) (sizes : List ℕ) :
    ∃ buffers, readChunks ps sizes = some buffers ∧ buffers.flatten = rest.take sizes.sum := by
  induction sizes generalizing ps rest with
  | nil => exact ⟨[], rfl, by simp⟩
  | cons n sizes ih =>
    obtain ⟨ps', hread, hdel⟩ := clReadStream_delivers h n
    obtain ⟨buffers, hrest, hflat⟩ := ih hdel
    refine ⟨rest.take n :: buffers, by simp [readChunks, hread, hrest], ?_⟩
    rw [flatten_cons, hflat, sum_cons, take_add]

/-! The merges with the restrictor list. -/

theorem take_set_succ {l : List ℕ} {i : ℕ} (h : i < l.length) (v : ℕ) :
    (l.set i v).take (i + 1) = l.take i ++ [v] := by
  rw [take_add_one, getElem?_set_self h, take_set_of_le le_rfl, toList_some]

/-- What is kept of `rest`: everything without a restrictor list. -/
def keeps (restricted : Bool) (res : List RestrictorRange) (cpos : ℕ) : Bool := !restricted || covered res cpos

theorem keeps_dropWhile (hok : RestrictorOk res) (cpos : ℕ) {cpos' : ℕ} (hle : cpos ≤ cpos') :
    RestrictorOk (res.dropWhile fun r => decide (cpos > r.stop.toUInt32.toNat)) ∧
    covered (res.dropWhile fun r => decide (cpos > r.stop.toUInt32.toNat)) cpos' = covered res cpos' := by
  induction res with
  | nil => exact ⟨hok, rfl⟩
  | cons r res ih =>
    have hstop := toUInt32_toNat (hok.stop_nonneg r mem_cons_self)
    by_cases h : cpos > r.stop.toUInt32.toNat
    · rw [dropWhile_cons_of_pos (by simpa using h), covered_skip (by omega)]
      exact ih hok.tail
    · rw [dropWhile_cons_of_neg (by simpa using h)]
      exact ⟨hok, rfl⟩

/-- One round of the loop over the gaps. -/
theorem gapRound_spec {b : ℕ} (restricted : Bool) {s : GapLoop} {p : ℕ} {base : List ℕ}
    {tl : List Bool} (hb : GolombParam b) (hok : RestrictorOk s.res) (hasc : Ascending s.lastPos (p :: rest))
    (hat : s.bs.At base (gapBits b s.lastPos (p :: rest) ++ tl)) (hroom : s.insPtr < s.buffer.length) (k : ℕ) :
    ∃ s', gapRound b restricted s k = some s' ∧ s'.lastPos = p ∧ RestrictorOk s'.res ∧
      s'.bs.At base (gapBits b p rest ++ tl) ∧
      (∀ q, p ≤ q → keeps restricted s'.res q = keeps restricted s.res q) ∧
      s'.buffer.length = s.buffer.length ∧
      s'.insPtr = s.insPtr + ([p].filter (keeps restricted s.res)).length ∧
      s'.buffer.take s'.insPtr = s.buffer.take s.insPtr ++ [p].filter (keeps restricted s.res) := by
  rw [gapBits, append_assoc] at hat
  obtain ⟨bs, hread, hat'⟩ := readGolombCodeBs_at hb _ hat
  have hle := hasc.head
  have hpos : s.lastPos + (p - s.lastPos) = p := by omega
  have htake := take_set_succ hroom p
  unfold gapRound
  simp only [hread, bind_eq_bind, bind_some, hpos]
  cases restricted with
  | false =>
    refine ⟨_, rfl, rfl, hok, hat', fun _ _ => rfl, by simp, ?_, ?_⟩
    · simp [keeps]
    · simpa [keeps] using htake
  | true =>
    obtain ⟨hok', -⟩ := keeps_dropWhile hok p le_rfl
    have hcov := fun (q : ℕ) (hq : p ≤ q) => (keeps_dropWhile hok p hq).2
    simp only [if_true]
    rcases hres : s.res.dropWhile (fun r => decide (p > r.stop.toUInt32.toNat)) with _ | ⟨r, res⟩
    · simp only [hres]
      rw [hres] at hok' hcov
      have hno : keeps true s.res p = false := by rw [keeps, ← hcov p le_rfl]; rfl
      exact ⟨_, rfl, rfl, hok', hat', fun q hq => by rw [keeps, keeps, hcov q hq], rfl, by simp [hno], by simp [hno]⟩
    · simp only [hres]
      rw [hres] at hok' hcov
      have hstart := toUInt32_toNat (hok'.start_nonneg r mem_cons_self)
      have hstop := toUInt32_toNat (hok'.stop_nonneg r mem_cons_self)
      have hin : p ≤ r.stop.toUInt32.toNat := by
        have := head?_dropWhile_not (fun r : RestrictorRange => decide (p > r.stop.toUInt32.toNat)) s.res
        rw [hres] at this
        simpa using this
      have hkeep : keeps true s.res p = decide (p ≥ r.start.toUInt32.toNat) := by
        rw [keeps, ← hcov p le_rfl, covered_first hok' (by omega), Bool.not_true, Bool.false_or]
        exact decide_eq_decide.mpr (by omega)
      by_cases hp : p ≥ r.start.toUInt32.toNat
      · rw [if_pos ⟨hp, hin⟩]
        have hyes : keeps true s.res p = true := by rw [hkeep]; simpa using hp
        refine ⟨_, rfl, rfl, hok', hat', fun q hq => by rw [keeps, keeps, hcov q hq], by simp, by simp [hyes], ?_⟩
        simpa [hyes] using htake
      · rw [if_neg fun h => hp h.1]
        have hno : keeps true s.res p = false := by rw [hkeep]; simpa using hp
        exact ⟨_, rfl, rfl, hok', hat', fun q hq => by rw [keeps, keeps, hcov q hq], rfl, by simp [hno], by simp [hno]⟩

/-- The whole loop: the buffer receives the kept positions, in order. -/
theorem gapLoop_spec {b : ℕ} (restricted : Bool) {base : List ℕ} {tl : List Bool} (hb : GolombParam b)
    (rest ks : List ℕ) (hks : ks.length = rest.length) {s : GapLoop} (hok : RestrictorOk s.res)
    (hasc : Ascending s.lastPos rest) (hat : s.bs.At base (gapBits b s.lastPos rest ++ tl))
    (hroom : s.insPtr + rest.length ≤ s.buffer.length) :
    ∃ s', ks.foldlM (gapRound b restricted) s = some s' ∧ s'.buffer.length = s.buffer.length ∧
      s'.insPtr = s.insPtr + (rest.filter (keeps restricted s.res)).length ∧
      s'.buffer.take s'.insPtr = s.buffer.take s.insPtr ++ rest.filter (keeps restricted s.res) := by
  induction rest generalizing s ks with
  | nil =>
    rw [length_eq_zero_iff.mp hks]
    exact ⟨s, rfl, rfl, by simp, by simp⟩
  | cons p rest ih =>
    obtain ⟨k, ks, rfl⟩ := exists_cons_of_length_pos (l := ks) (by rw [hks]; simp)
    rw [length_cons] at hroom
    obtain ⟨s1, hround, hlast, hok1, hat1, hkeep, hlen1, hins1, htake1⟩ :=
      gapRound_spec restricted hb hok hasc hat (by omega) k
    have hone : ([p].filter (keeps restricted s.res)).length ≤ 1 := length_filter_le _ _
    have hrest : rest.filter (keeps restricted s1.res) = rest.filter (keeps restricted s.res) :=
      filter_congr fun q hq => hkeep q ((pairwise_cons.mp hasc.tail).1 q hq)
    obtain ⟨s', hfold, hlen, hins, htake⟩ := ih ks (by simpa using hks) hok1 (by rw [hlast]; exact hasc.tail)
      (by rw [hlast]; exact hat1) (by omega)
    have hfilter : (p :: rest).filter (keeps restricted s.res) =
        [p].filter (keeps restricted s.res) ++ rest.filter (keeps restricted s.res) := by
      rw [← filter_append, singleton_append]
    refine ⟨s', by rw [foldlM_cons, hround]; exact hfold, by rw [hlen, hlen1], ?_, ?_⟩
    · rw [hins, hins1, hrest, hfilter, length_append, Nat.add_assoc]
    · rw [htake, htake1, hrest, hfilter, append_assoc]

/-- The loop on the plain path compacts what is left of the buffer. -/
theorem restrictLoop_spec (fuel : ℕ) (hok : RestrictorOk res) {buffer : List ℕ}
    {bufPtr insPtr : ℕ} (hrest : buffer.drop bufPtr = rest) (hasc : rest.Pairwise (· ≤ ·)) (hle : insPtr ≤ bufPtr)
    (hfuel : rest.length + res.length ≤ fuel) :
    ∃ buffer', restrictLoop buffer.length fuel res bufPtr insPtr buffer =
        (buffer', insPtr + (rest.filter (covered res)).length) ∧
      buffer'.length = buffer.length ∧
      buffer'.take (insPtr + (rest.filter (covered res)).length) =
        buffer.take insPtr ++ rest.filter (covered res) := by
  induction fuel generalizing res buffer rest bufPtr insPtr with
  | zero =>
    have h0 : rest = [] := length_eq_zero_iff.mp (by omega)
    subst h0
    exact ⟨buffer, by simp [restrictLoop], rfl, by simp⟩
  | succ fuel ih =>
    unfold restrictLoop
    by_cases hlt : bufPtr < buffer.length
    · rw [if_pos hlt]
      obtain ⟨p, rest', rfl⟩ : ∃ p rest', rest = p :: rest' := by
        rw [drop_eq_getElem_cons hlt] at hrest
        exact ⟨_, _, hrest.symm⟩
      have hget : buffer.getD bufPtr 0 = p := by
        have := congrArg (fun l => l[0]?) hrest
        simp only [getElem?_drop, Nat.add_zero, getElem?_cons_zero] at this
        rw [getD_eq_getElem?_getD, this, getD_some]
      have hdrop : buffer.drop (bufPtr + 1) = rest' := by
        rw [← tail_drop, hrest, tail_cons]
      have hasc' := pairwise_cons.mp hasc
      rw [length_cons] at hfuel
      cases res with
      | nil =>
        have : (p :: rest').filter (covered []) = [] := by simp [covered]
        rw [this]
        exact ⟨buffer, rfl, rfl, by simp⟩
      | cons r res =>
        rw [length_cons] at hfuel
        simp only [hget]
        by_cases hbefore : (p : ℤ) < r.start.toInt
        · -- before the start of this range, and so of all that are left
          have hno : covered (r :: res) p = false := by
            by_cases hstop : (p : ℤ) ≤ r.stop.toInt
            · rw [covered_first hok hstop]
              exact decide_eq_false (by omega)
            · rw [covered, List.any_eq_false]
              intro x hx
              have hstart : r.start.toInt ≤ x.start.toInt := by
                rcases mem_cons.mp hx with rfl | hx
                · exact le_rfl
                · exact (pairwise_cons.mp hok.sorted).1 x hx
              have : ¬ x.covers p := fun hc => by have := hc.1; omega
              simpa using this
          rw [if_pos hbefore, filter_cons_of_neg (by simp [hno])]
          exact ih hok hdrop hasc'.2 (by omega) (by rw [length_cons]; omega)
        · rw [if_neg hbefore]
          by_cases hbeyond : (p : ℤ) > r.stop.toInt
          · rw [if_pos hbeyond]
            have hskip : (p :: rest').filter (covered (r :: res)) = (p :: rest').filter (covered res) := by
              refine filter_congr fun q hq => covered_skip ?_
              rcases mem_cons.mp hq with rfl | hq
              · exact hbeyond
              · have := hasc'.1 q hq
                omega
            rw [hskip]
            exact ih hok.tail hrest hasc hle (by rw [length_cons]; omega)
          · rw [if_neg hbeyond]
            have hyes : covered (r :: res) p = true := by
              rw [covered_first hok (by omega)]
              exact decide_eq_true (by omega)
            rw [filter_cons_of_pos hyes]
            have hset : (buffer.set insPtr p).drop (bufPtr + 1) = rest' := by
              rw [drop_set_of_lt (by omega), hdrop]
            have hle' : insPtr + 1 ≤ bufPtr + 1 := by omega
            obtain ⟨buffer', hloop, hlen, htake⟩ := ih hok hset hasc'.2 hle' (by rw [length_cons]; omega)
            rw [length_set] at hloop hlen
            refine ⟨buffer', ?_, hlen, ?_⟩
            · rw [hloop, length_cons]
              congr 1
              omega
            · rw [length_cons, show insPtr + ((rest'.filter (covered (r :: res))).length + 1) =
                insPtr + 1 + (rest'.filter (covered (r :: res))).length by omega, htake,
                take_set_succ (by omega), append_assoc]
              rfl
    · have hnil : rest = [] := by rw [← hrest, drop_eq_nil_of_le (by omega)]
      subst hnil
      rw [if_neg hlt]
      exact ⟨buffer, by simp, rfl, by simp⟩

theorem reduceBuffer_eq {buffer kept : List ℕ} (htake : buffer.take kept.length = kept) (hpos : 0 < buffer.length) :
    reduceBuffer buffer buffer.length kept.length =
      { buffer := if kept = [] then none else some kept, freq := some kept.length } := by
  unfold reduceBuffer
  by_cases h : kept.length < buffer.length
  · simp only [if_pos h, htake, length_eq_zero_iff]
  · have hall : buffer = kept := by rw [← htake, take_of_length_le (by omega)]
    subst hall
    rw [if_neg h, if_neg (ne_nil_of_length_pos hpos)]

/-! From the token stream to the files. -/

/-- The attribute of a token stream, with one of the two index formats loaded. -/
def TokenStream.attribute (t : TokenStream) (index : InvertedIndex) : PosAttribute :=
  { size := t.ids.length, freqs := creatFreqs t.ids t.lexsize, index := index }

def TokenStream.plainIndex (t : TokenStream) (rev : List ℕ) : InvertedIndex :=
  .plain rev (creatRevCorpusIdx (creatFreqs t.ids t.lexsize))

section Files

variable {pa : ℕ → ℕ → Int32} {t : TokenStream} {index : InvertedIndex} {id : ℕ}

theorem count_pos (hid : id < t.lexsize) : 0 < t.ids.count id := count_pos_iff.mpr (t.occurs id hid)

theorem size_pos (t : TokenStream) : 0 < t.ids.length :=
  length_pos_of_mem (t.occurs 0 t.lexsize_pos)

theorem clMaxId_attribute : clMaxId (t.attribute index) = t.lexsize := by
  simp [clMaxId, TokenStream.attribute, creatFreqs_eq]

theorem clId2freq_attribute (hid : id < t.lexsize) :
    clId2freq (t.attribute index) id = some (t.ids.count id) := freqs_getElem? hid

/-- The checks at the top of the access functions pass. -/
theorem guards_pass (index : InvertedIndex) (hid : id < t.lexsize) :
    ¬ (clMaxCpos (t.attribute index) = 0 ∨ clMaxId (t.attribute index) = 0) ∧
    ¬ ((id : ℤ) < 0 ∨ (id : ℤ) ≥ clMaxId (t.attribute index)) := by
  have hsize := size_pos t
  have hcpos : clMaxCpos (t.attribute index) = t.ids.length := rfl
  rw [clMaxId_attribute, hcpos]
  exact ⟨by omega, by omega⟩

/-- The files of an index hold the positions of `id` where the access functions look for them. -/
def Indexes (pa : ℕ → ℕ → Int32) (t : TokenStream) (id : ℕ) : InvertedIndex → Prop
  | .plain rev rdx => ∃ offset, rdx[id]? = some offset ∧ positions t.ids id <+: rev.drop offset
  | .compressed crc crx => ∃ offset tl, crx[id]? = some offset ∧
      (bytesBits crc).drop (8 * offset) =
        gapBits (computeBa pa (t.ids.count id) t.ids.length) 0 (positions t.ids id) ++ tl

theorem clNewStream_delivers (hid : id < t.lexsize) (hix : Indexes pa t id index) :
    ∃ ps, clNewStream pa (t.attribute index) id = some ps ∧ Delivers ps (positions t.ids id) := by
  obtain ⟨h1, h2⟩ := guards_pass index hid
  unfold clNewStream
  rw [if_neg (by tauto), Int.toNat_natCast, clId2freq_attribute hid]
  simp only [bind_eq_bind, bind_some]
  cases index with
  | plain rev rdx =>
    obtain ⟨offset, hoff, hpre⟩ := hix
    refine ⟨{ idFreq := t.ids.count id, isCompressed := false, base := rev.drop offset }, ?_, ?_, ?_⟩
    · simp [TokenStream.attribute, hoff]
    · simp [positions_length]
    · simpa using hpre
  | compressed crc crx =>
    obtain ⟨offset, tl, hoff, hbits⟩ := hix
    refine ⟨{ idFreq := t.ids.count id, isCompressed := true,
              b := computeBa pa (t.ids.count id) t.ids.length, bs := bsSeek (bsOpen crc) offset }, ?_, ?_, ?_⟩
    · simp [TokenStream.attribute, clMaxCpos, hoff]
    · simp [positions_length]
    · rw [if_pos rfl]
      exact ⟨computeBa_param _ _ _, positions_ascending _ _, crc, tl, hbits ▸ bsSeek_at crc offset⟩

theorem clId2cpos_ideal (hid : id < t.lexsize) (hix : Indexes pa t id index) {restrictor : List RestrictorRange}
    (hok : RestrictorOk restrictor) :
    clId2cposOldstyle pa (t.attribute index) id restrictor = some (idealId2cpos t.ids id restrictor) := by
  obtain ⟨h1, h2⟩ := guards_pass index hid
  have hlen := positions_length t.ids id
  have hcount := count_pos hid
  have hfilter : occurrences t.ids id restrictor =
      (positions t.ids id).filter (keeps (!restrictor.isEmpty) restrictor) := by
    refine filter_congr fun cpos _ => ?_
    rw [keeps, Bool.not_not]
  unfold clId2cposOldstyle
  rw [if_neg h1, if_neg h2, Int.toNat_natCast, clId2freq_attribute hid]
  simp only [bind_eq_bind, bind_some]
  cases index with
  | plain rev rdx =>
    obtain ⟨offset, hoff, tl, htl⟩ := hix
    have hbuf : (rev.drop offset).take (t.ids.count id) = positions t.ids id := by
      rw [← htl, ← hlen, take_left]
    simp only [TokenStream.attribute, hoff, bind_some, hbuf, hlen, ne_eq, not_true_eq_false, if_false]
    cases restrictor with
    | nil =>
      have hne : positions t.ids id ≠ [] := ne_nil_of_length_pos (by omega)
      simp [idealId2cpos, occurrences, hne, hlen]
    | cons r res =>
      obtain ⟨buffer, hloop, hblen, htake⟩ := restrictLoop_spec (t.ids.count id + (r :: res).length) hok
        (drop_zero (l := positions t.ids id)) ((positions_sorted _ _).imp le_of_lt) (le_refl 0) (by omega)
      have hocc : occurrences t.ids id (r :: res) = (positions t.ids id).filter (covered (r :: res)) := by
        rw [hfilter]
        rfl
      rw [Nat.zero_add, ← hocc] at hloop htake
      rw [hlen] at hloop hblen
      simp only [isEmpty_cons, Bool.false_eq_true, if_false, hloop]
      rw [← hblen, reduceBuffer_eq (by simpa using htake) (by omega)]
      rfl
  | compressed crc crx =>
    obtain ⟨offset, tl, hoff, hbits⟩ := hix
    simp only [TokenStream.attribute, hoff, bind_some, clMaxCpos]
    obtain ⟨s, hfold, hblen, hins, htake⟩ := gapLoop_spec (!restrictor.isEmpty)
      (computeBa_param pa (t.ids.count id) t.ids.length) (positions t.ids id) (range (t.ids.count id))
      (by simp [hlen]) (s := { bs := bsSeek (bsOpen crc) offset, res := restrictor,
                               buffer := replicate (t.ids.count id) 0 })
      hok (positions_ascending _ _) (hbits ▸ bsSeek_at crc offset) (by simp [hlen])
    rw [hfold]
    simp only [bind_some]
    simp only [length_replicate, Nat.zero_add, take_zero, nil_append, ← hfilter] at hblen hins htake
    rw [hins] at htake
    rw [hins, ← hblen, reduceBuffer_eq htake (by omega)]
    rfl

theorem plainIndex_indexes (hid : id < t.lexsize) :
    Indexes pa t id (t.plainIndex ((range t.lexsize).flatMap (positions t.ids))) := by
  refine ⟨revStart t.ids id, by simp [creatRevCorpusIdx_eq, hid], ?_⟩
  obtain ⟨tl, htl⟩ := revCorpus_drop t.ids hid
  rw [htl]
  exact prefix_append _ _

/-- The loop over the occurrences of one ID appends the bits of its gaps. -/
theorem compressGaps_spec {b : ℕ} (hb : GolombParam b) (rest ks : List ℕ) (hks : ks.length = rest.length)
    {file : BFile} (last : ℕ) (hf : file.Ok) (hdel : Delivers ps rest) :
    ∃ file' last' ps', ks.foldlM (compressGap b) (file, last, ps) = some (file', last', ps') ∧
      file'.Ok ∧ file'.bits = file.bits ++ gapBits b last rest := by
  induction rest generalizing ks file last ps with
  | nil =>
    rw [length_eq_zero_iff.mp hks]
    exact ⟨file, last, ps, rfl, hf, by simp [gapBits]⟩
  | cons p rest ih =>
    obtain ⟨k, ks, rfl⟩ := exists_cons_of_length_pos (l := ks) (by rw [hks]; simp)
    obtain ⟨ps1, hread, hdel1⟩ := clReadStream_delivers hdel 1
    obtain ⟨file', last', ps', hfold, hok, hbits⟩ := ih ks (by simpa using hks) p
      (writeGolombCode_ok hf (p - last) b) hdel1
    refine ⟨file', last', ps', ?_, hok, ?_⟩
    · rw [foldlM_cons, compressGap, hread]
      exact hfold
    · rw [hbits, writeGolombCode_bits hf _ hb, gapBits, append_assoc]

/-- The files after the first `n` IDs. -/
structure CompressInv (pa : ℕ → ℕ → Int32) (t : TokenStream) (n : ℕ) (s : BFile × List ℕ) : Prop where
  ok : s.1.Ok
  aligned : s.1.bitsInBuf = 0
  length_eq : s.2.length = n
  placed : ∀ id < n, ∃ offset tl, s.2[id]? = some offset ∧ 8 * offset ≤ s.1.bits.length ∧
    s.1.bits.drop (8 * offset) =
      gapBits (computeBa pa (t.ids.count id) t.ids.length) 0 (positions t.ids id) ++ tl

theorem compressElement_inv {s : BFile × List ℕ} (hid : id < t.lexsize) (hix : Indexes pa t id index)
    (h : CompressInv pa t id s) :
    ∃ s', compressElement pa (t.attribute index) s id = some s' ∧ CompressInv pa t (id + 1) s' := by
  have hcount := count_pos hid
  obtain ⟨ps, hnew, hdel⟩ := clNewStream_delivers hid hix
  obtain ⟨file, last, ps', hfold, hok, hbits⟩ := compressGaps_spec
    (computeBa_param pa (t.ids.count id) t.ids.length) (positions t.ids id) (range (t.ids.count id))
    (by simp [positions_length]) 0 h.ok hdel
  obtain ⟨k, hflush⟩ := bfFlush_bits _
  rw [hbits, append_assoc] at hflush
  refine ⟨(bfFlush file, s.2 ++ [bfPosition s.1]), ?_, bfFlush_ok hok, bfFlush_aligned hok, by simp [h.length_eq], ?_⟩
  · have hcpos : clMaxCpos (t.attribute index) = t.ids.length := rfl
    unfold compressElement
    simp only [clId2freq_attribute hid, bind_eq_bind, bind_some, hnew, hcpos, hfold,
      if_neg (show ¬ t.ids.count id = 0 by omega)]
  · intro j hj
    simp only [hflush]
    rcases Nat.lt_succ_iff_lt_or_eq.mp hj with hlt | rfl
    · obtain ⟨offset, tl, hoff, hle, hdrop⟩ := h.placed j hlt
      refine ⟨offset, tl ++ (gapBits (computeBa pa (t.ids.count id) t.ids.length) 0 (positions t.ids id) ++
        replicate k false), ?_, ?_, ?_⟩
      · rw [getElem?_append_left (by rw [h.length_eq]; exact hlt), hoff]
      · rw [length_append]
        omega
      · rw [drop_append_of_le_length hle, hdrop, append_assoc]
    · have hlen := bits_length_of_aligned h.ok h.aligned
      refine ⟨bfPosition s.1, replicate k false, ?_, ?_, ?_⟩
      · rw [← h.length_eq, getElem?_concat_length]
      · rw [length_append]
        omega
      · rw [← hlen, drop_left]

theorem compressElements_inv (hix : ∀ id < t.lexsize, Indexes pa t id index) (n : ℕ) (hn : n ≤ t.lexsize) :
    ∃ s, (range n).foldlM (compressElement pa (t.attribute index)) ({}, []) = some s ∧
      CompressInv pa t n s := by
  induction n with
  | zero => exact ⟨({}, []), rfl, ok_empty, rfl, rfl, by simp⟩
  | succ n ih =>
    obtain ⟨s, hfold, hinv⟩ := ih (by omega)
    obtain ⟨s', hstep, hinv'⟩ := compressElement_inv (show n < t.lexsize by omega) (hix n (by omega)) hinv
    refine ⟨s', ?_, hinv'⟩
    rw [range_succ, foldlM_append, hfold]
    simp [hstep]

theorem compressReversedIndex_indexes (pa : ℕ → ℕ → Int32) (t : TokenStream)
    (hix : ∀ id < t.lexsize, Indexes pa t id index) :
    ∃ crc crx, compressReversedIndex pa (t.attribute index) = some (crc, crx) ∧
      ∀ id < t.lexsize, Indexes pa t id (.compressed crc crx) := by
  obtain ⟨s, hfold, hinv⟩ := compressElements_inv hix t.lexsize le_rfl
  have hguard := (guards_pass index t.lexsize_pos).1
  refine ⟨(bfFlush s.1).fd, s.2, ?_, ?_⟩
  · unfold compressReversedIndex
    rw [if_neg (by tauto), clMaxId_attribute, hfold]
    rfl
  · intro id hid
    obtain ⟨offset, tl, hoff, hle, hdrop⟩ := hinv.placed id hid
    obtain ⟨k, hflush⟩ := bfFlush_bits _
    refine ⟨offset, tl ++ replicate k false, hoff, ?_⟩
    rw [bytesBits_fd_of_aligned (bfFlush_aligned hinv.ok), hflush, drop_append_of_le_length hle, hdrop,
      append_assoc]

end Files

end CWB
