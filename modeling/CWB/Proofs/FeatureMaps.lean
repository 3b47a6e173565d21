import CWB.Spec.FeatureMaps

/-! Both passes of `create_feature_maps` see the same features: each word points to its character count and exactly its
features. `feature_match` then computes the similarity that the configuration gives, whatever has been compared before,
and its vector is empty again. -/

namespace CWB

open Nat Function Option List SliceTable

/-! ## The entries of a line -/

/-- The entries of the pairs, in the order in which they are written. -/
def pairEntries {P : Type} (word : P → ℕ) : ℤ → List P → List (ℕ × ℤ)
  | _, [] => []
  | base, p :: pairs => (word p, base) :: pairEntries word (base + 1) pairs

theorem valuesOf_pairEntries {P : Type} (word : P → ℕ) (i : ℕ) (base : ℤ) (pairs : List P) :
    valuesOf (pairEntries word base pairs) i = pairFeatures word i base pairs := by
  induction pairs generalizing base with
  | nil => rfl
  | cons p pairs ih => rw [pairEntries, valuesOf_cons, ih, pairFeatures]

theorem length_pairFeatures {P : Type} (word : P → ℕ) (i : ℕ) (base : ℤ) (pairs : List P) :
    (pairFeatures word i base pairs).length = (pairs.map word).count i := by
  induction pairs generalizing base with
  | nil => rfl
  | cons p pairs ih =>
    rw [pairFeatures, length_append, ih, map_cons, count_cons]
    split_ifs with h h' h'
    · exact Nat.add_comm ..
    · exact absurd (beq_iff_eq.mpr h) h'
    · exact absurd (beq_iff_eq.mp h') h
    · exact Nat.zero_add _

/-- The entries of all words, one word after the other. -/
def wordEntries {n : ℕ} {α : Type} (items : Fin n → List α) (words : List (Fin n)) : List (ℕ × α) :=
  words.flatMap fun i => (items i).map fun v => ((i : ℕ), v)

theorem valuesOf_wordEntries_cons {n : ℕ} {α : Type} (items : Fin n → List α) (i : Fin n) (words : List (Fin n)) (j : ℕ) :
    valuesOf (wordEntries items (i :: words)) j = (if i.val = j then items i else []) ++ valuesOf (wordEntries items words) j := by
  rw [wordEntries, flatMap_cons, valuesOf_append, wordEntries]
  congr 1
  rw [valuesOf, filterMap_map]
  split_ifs with h
  · simp [h]
  · simp [h]

theorem valuesOf_wordEntries {n : ℕ} {α : Type} (items : Fin n → List α) (i : Fin n) :
    valuesOf (wordEntries items (finRange n)) i = items i := by
  have hfilter : ∀ words : List (Fin n), valuesOf (wordEntries items words) i = (words.filter (· = i)).flatMap items := by
    intro words
    induction words with
    | nil => rfl
    | cons j words ih =>
      rw [valuesOf_wordEntries_cons, ih, filter_cons]
      by_cases hji : j = i
      · simp [hji]
      · simp [hji, Fin.val_ne_of_ne hji]
  rw [hfilter, filter_eq, count_eq_one_of_mem (nodup_finRange n) (mem_finRange i)]
  simp

variable {t : Table ℤ}

namespace AlignCorpora

variable {env : AlignCorpora}

def Side.ngramItems (side : env.Side) (n : ℕ) (base : ℤ) (i : Fin side.att.maxId) : List ℤ :=
  (Windows.windows n (env.canonical (side.att.id2str i))).map fun g => base + gramCode g

/-- The entries that the second pass writes for a line. -/
def Side.lineEntries (side : env.Side) (base : ℤ) : env.Line → List (ℕ × ℤ)
  | .pairs _ words => pairEntries (fun p => side.word p) base words
  | .ngrams n _ => wordEntries (side.ngramItems n base) (finRange side.att.maxId)
  | .nothing | .charCount _ => []

theorem Side.valuesOf_lineEntries (side : env.Side) (base : ℤ) (line : env.Line) (i : Fin side.att.maxId) :
    valuesOf (side.lineEntries base line) i = side.lineFeatures base line i := by
  cases line with
  | nothing => rfl
  | pairs weight words => exact valuesOf_pairEntries ..
  | ngrams n weight => exact valuesOf_wordEntries ..
  | charCount weight => rfl

/-- The number of entries of a word. -/
def Side.lineCount (side : env.Side) (line : env.Line) (i : ℕ) : ℕ := (valuesOf (side.lineEntries 0 line) i).length

theorem Side.length_lineEntries (side : env.Side) (base : ℤ) (line : env.Line) (i : ℕ) :
    (valuesOf (side.lineEntries base line) i).length = side.lineCount line i := by
  cases line with
  | nothing => rfl
  | pairs weight words =>
    rw [lineCount, lineEntries, lineEntries, valuesOf_pairEntries, valuesOf_pairEntries, length_pairFeatures, length_pairFeatures]
  | ngrams n weight =>
    rw [lineCount, lineEntries, lineEntries]
    induction finRange side.att.maxId with
    | nil => rfl
    | cons j words ih =>
      rw [valuesOf_wordEntries_cons, valuesOf_wordEntries_cons, length_append, length_append, ih]
      congr 1
      split_ifs
      · simp only [ngramItems, length_map]
      · rfl
  | charCount weight => rfl

/-! ## First pass -/

/-- The counts after a line. -/
def addLine (st : FeatureCounts) (line : env.Line) : FeatureCounts where
  nFeatures := st.nFeatures + line.size
  fcount1 i := st.fcount1 i + env.source.lineCount line i
  fcount2 i := st.fcount2 i + env.target.lineCount line i

theorem addTo_apply (fcount : ℕ → ℕ) (i n j : ℕ) : FeatureCounts.addTo fcount i n j = fcount j + if i = j then n else 0 := by
  unfold FeatureCounts.addTo
  by_cases hij : i = j
  · subst hij
    rw [update_self, if_pos rfl]
  · rw [update_of_ne (Ne.symm hij), if_neg hij, add_zero]

theorem Side.lineCount_pairs_cons (side : env.Side) (weight : ℤ) (p : Fin env.wAttr1.maxId × Fin env.wAttr2.maxId)
    (words : List (Fin env.wAttr1.maxId × Fin env.wAttr2.maxId)) (i : ℕ) :
    side.lineCount (.pairs weight (p :: words)) i =
      (if side.word p = i then 1 else 0) + side.lineCount (.pairs weight words) i := by
  rw [lineCount, lineCount, lineEntries, lineEntries, valuesOf_pairEntries, valuesOf_pairEntries, length_pairFeatures,
    length_pairFeatures, map_cons, count_cons, add_comm]
  simp only [beq_iff_eq]

theorem foldl_pair (weight : ℤ) (words : List (Fin env.wAttr1.maxId × Fin env.wAttr2.maxId)) (st : FeatureCounts) :
    words.foldl (fun st p => st.pair p.1 p.2) st = addLine st (.pairs weight words : env.Line) := by
  induction words generalizing st with
  | nil => rfl
  | cons p words ih =>
    rw [foldl_cons, ih, addLine, addLine, FeatureCounts.pair]
    congr 1
    · rw [FeatureLine.size, FeatureLine.size, length_cons]
      ring
    · funext i
      dsimp only
      rw [addTo_apply, Side.lineCount_pairs_cons, add_assoc]
      rfl
    · funext i
      dsimp only
      rw [addTo_apply, Side.lineCount_pairs_cons, add_assoc]
      rfl

theorem countNgrams_eq (side : env.Side) (n : ℕ) (weight : ℤ) (fcount : ℕ → ℕ) :
    env.countNgrams n side.att fcount = fun i => fcount i + side.lineCount (.ngrams n weight) i := by
  rw [countNgrams]
  unfold Side.lineCount Side.lineEntries
  induction finRange side.att.maxId generalizing fcount with
  | nil => rfl
  | cons i words ih =>
    rw [foldl_cons, ih]
    funext j
    have hlength : (side.ngramItems n 0 i).length =
        if (env.canonical (side.att.id2str i)).length ≥ n then (env.canonical (side.att.id2str i)).length - n + 1 else 0 := by
      rw [Side.ngramItems, Windows.windows, length_map, length_map, length_range]
      split_ifs <;> omega
    rw [addTo_apply, valuesOf_wordEntries_cons, length_append, apply_ite List.length, hlength, length_nil, add_assoc]

theorem countWordListLine_eq (st : FeatureCounts) (line : ℕ × List UInt8 × List UInt8) :
    env.countWordListLine st line =
      if env.validLine line then
        some (match env.wordListPair line with
          | some p => st.pair p.1 p.2
          | none => st)
      else none := by
  obtain ⟨nw, word1, word2⟩ := line
  rw [countWordListLine, validLine, wordListPair]
  by_cases hvalid : (clStringValidateEncoding env.glib word1 env.charset &&
      clStringValidateEncoding env.glib word2 env.charset) = true
  · rw [if_pos hvalid, if_neg (by rw [hvalid]; decide)]
    split_ifs with hnw
    · rfl
    · cases env.wAttr1.str2id word1 with
      | none => rfl
      | some i1 =>
        cases env.wAttr2.str2id word2 with
        | none => rfl
        | some i2 => rfl
  · rw [if_neg hvalid, if_pos (by rw [Bool.not_eq_true] at hvalid; rw [hvalid]; rfl)]

theorem foldlM_countWordListLine (weight : ℤ) (lines : List (ℕ × List UInt8 × List UInt8)) (st : FeatureCounts) :
    lines.foldlM env.countWordListLine st =
      if lines.all env.validLine then some (addLine st (.pairs weight (lines.filterMap env.wordListPair) : env.Line)) else none := by
  induction lines generalizing st with
  | nil => rfl
  | cons line lines ih =>
    rw [foldlM_cons, countWordListLine_eq, all_cons]
    by_cases hvalid : env.validLine line = true
    · rw [if_pos hvalid, hvalid, Bool.true_and]
      refine (ih _).trans ?_
      congr 2
      rw [← foldl_pair, ← foldl_pair, filterMap_cons]
      cases env.wordListPair line with
      | none => rfl
      | some p => rfl
    · rw [if_neg hvalid, Bool.not_eq_true] at *
      rw [hvalid]
      rfl

/-- The first pass counts the features of each line. -/
theorem firstPass_eq (st : FeatureCounts) (config : List UInt8) :
    env.firstPass st config = (env.readLine config).map (addLine st) := by
  rw [firstPass, readLine]
  dsimp only
  generalize stripComment config = line
  cases configCommand line with
  | empty => rfl
  | sharedWords =>
    dsimp only
    cases env.scanSharedWords line with
    | none => rfl
    | some shared =>
      obtain ⟨weight, threshold⟩ := shared
      rw [map_some, map_some, ← foldl_pair, sharedPairs, foldl_filterMap]
      dsimp only
      congr 2
      funext st i1
      cases env.sharedWord threshold i1 with
      | none => rfl
      | some i2 => rfl
  | ngrams =>
    dsimp only
    cases env.scanNgrams line with
    | none => rfl
    | some ngrams =>
      obtain ⟨n, weight⟩ := ngrams
      rw [bind_some]
      dsimp only
      split_ifs with hn
      · rfl
      · rw [map_some, addLine, ← countNgrams_eq env.source n.toNat weight, ← countNgrams_eq env.target n.toNat weight]
        rfl
  | wordList =>
    dsimp only
    cases env.scanWordList line with
    | none => rfl
    | some list =>
      obtain ⟨weight, filename⟩ := list
      rw [bind_some]
      dsimp only
      cases env.fopen filename with
      | none => rfl
      | some wordlist =>
        rw [bind_some]
        refine (foldlM_countWordListLine weight _ st).trans ?_
        rw [apply_ite (Option.map (addLine st))]
        rfl
  | charCount =>
    dsimp only
    cases env.scanCharCount line with
    | none => rfl
    | some weight => rfl
  | unknown => rfl
  | noCommand => rfl

/-! ## Second pass -/

/-- The weights after a line with the features from `base` on. -/
def lineWeights (base : ℤ) (line : env.Line) (fweight : ℤ → ℤ) : ℤ → ℤ :=
  match line with
  | .charCount weight => update fweight 0 weight
  | .nothing => fweight
  | .pairs _ _ | .ngrams _ _ => fun f => if base ≤ f ∧ f < base + line.size then line.weight else fweight f

/-- The state after a line, with the maps `w2f1` and `w2f2`. -/
def fillLine (st : FeatureFill) (line : env.Line) (w2f1 w2f2 : Table ℤ) : FeatureFill where
  r := { st.r with w2f1, w2f2, fweight := lineWeights st.currentFeature line st.r.fweight }
  currentFeature := st.currentFeature + line.size

variable {st : FeatureFill} {t1 t2 : Table ℤ}

theorem lineWeights_pairs (base weight : ℤ) (words : List (Fin env.wAttr1.maxId × Fin env.wAttr2.maxId)) (fweight : ℤ → ℤ)
    (f : ℤ) : lineWeights base (.pairs weight words : env.Line) fweight f =
      if base ≤ f ∧ f < base + (words.length : ℤ) then weight else fweight f := rfl

theorem lineWeights_pairs_nil (base weight : ℤ) (fweight : ℤ → ℤ) : lineWeights base (.pairs weight [] : env.Line) fweight = fweight := by
  funext f
  rw [lineWeights_pairs]
  exact if_neg (by simp)

theorem lineWeights_pairs_cons (base weight : ℤ) (p : Fin env.wAttr1.maxId × Fin env.wAttr2.maxId)
    (words : List (Fin env.wAttr1.maxId × Fin env.wAttr2.maxId)) (fweight : ℤ → ℤ) :
    lineWeights (base + 1) (.pairs weight words : env.Line) (update fweight base weight) =
      lineWeights base (.pairs weight (p :: words) : env.Line) fweight := by
  funext f
  rw [lineWeights_pairs, lineWeights_pairs]
  by_cases hf : f = base
  · subst hf
    rw [update_self, ite_self]
    exact (if_pos ⟨le_rfl, by rw [length_cons]; omega⟩).symm
  · rw [update_of_ne hf]
    exact if_congr (by rw [length_cons]; push_cast; omega) rfl rfl

theorem foldlM_pair (weight : ℤ) (words : List (Fin env.wAttr1.maxId × Fin env.wAttr2.maxId))
    (h1 : st.r.w2f1.pushAll (pairEntries (fun p => env.source.word p) st.currentFeature words) = some t1)
    (h2 : st.r.w2f2.pushAll (pairEntries (fun p => env.target.word p) st.currentFeature words) = some t2)
    (hcur : 0 ≤ st.currentFeature) (hbound : st.currentFeature + words.length ≤ st.r.nFeatures) :
    words.foldlM (fun st p => st.pair weight p.1 p.2) st = some (fillLine st (.pairs weight words : env.Line) t1 t2) := by
  induction words generalizing st with
  | nil =>
    cases h1
    cases h2
    rw [fillLine, lineWeights_pairs_nil, FeatureLine.size, length_nil, cast_zero, add_zero]
    rfl
  | cons p words ih =>
    rw [pairEntries, pushAll_cons, bind_eq_some_iff] at h1 h2
    obtain ⟨s1, hpush1, h1⟩ := h1
    obtain ⟨s2, hpush2, h2⟩ := h2
    rw [length_cons] at hbound
    push_cast at hbound
    have hpair : st.pair weight p.1 p.2 = some {
        r := { st.r with w2f1 := s1, w2f2 := s2, fweight := update st.r.fweight st.currentFeature weight }
        currentFeature := st.currentFeature + 1 } := by
      rw [FeatureFill.pair, show st.r.w2f2.push p.2 st.currentFeature = some s2 from hpush2,
        show st.r.w2f1.push p.1 st.currentFeature = some s1 from hpush1]
      dsimp only [bind, Option.bind]
      rw [FeatureMaps.setWeight, if_pos ⟨hcur, by dsimp only; omega⟩]
      rfl
    rw [foldlM_cons, hpair]
    refine (ih h1 h2 (by dsimp only; omega) (by dsimp only; omega)).trans ?_
    rw [fillLine, fillLine, lineWeights_pairs_cons, FeatureLine.size, FeatureLine.size, length_cons]
    dsimp only
    push_cast
    rw [add_right_comm, add_assoc]

theorem foldlM_setWeight (weight : ℤ) (base : ℤ) (hbase : 0 ≤ base) (f : ℕ) (r : FeatureMaps) (hbound : base + f ≤ r.nFeatures) :
    (range f).foldlM (fun r k => FeatureMaps.setWeight weight r (base + (k : ℕ))) r =
      some { r with fweight := fun g => if base ≤ g ∧ g < base + f then weight else r.fweight g } := by
  induction f with
  | zero =>
    have hnone : ∀ g, ¬(base ≤ g ∧ g < base + ((0 : ℕ) : ℤ)) := by
      intro g
      rw [cast_zero]
      omega
    simp only [hnone, if_false]
    rfl
  | succ f ih =>
    push_cast at hbound
    rw [range_succ, foldlM_append, ih (by omega)]
    change (FeatureMaps.setWeight weight _ (base + f)).bind some = _
    rw [FeatureMaps.setWeight, if_pos ⟨by omega, by dsimp only; omega⟩, bind_some]
    congr 2
    funext g
    by_cases hg : g = base + f
    · subst hg
      rw [update_self, if_pos (by push_cast; omega)]
    · rw [update_of_ne hg]
      exact if_congr (by push_cast; omega) rfl rfl

theorem charMap_lt (c : UInt8) : charMap c < charMapRange := by
  have hall : ∀ n : Fin 256, charMap (UInt8.ofNat n) < charMapRange := by decide +kernel
  have h := hall ⟨c.toNat, c.toNat_lt⟩
  rwa [UInt8.ofNat_toNat] at h

/-- The loop over the rest of a word, behind the characters `s`. -/
theorem foldlM_ngramStep (n : ℕ) (base : ℤ) (i : ℕ) (rest s : List UInt8) {t' : Table ℤ}
    (h : t.pushAll ((Windows.windowsBehind n s rest).map fun g => (i, base + gramCode g)) = some t') :
    rest.foldlM (ngramStep n (charMapRange ^ n) base i) (gramCode s % charMapRange ^ n, s.length, t) =
      some (gramCode (s ++ rest) % charMapRange ^ n, (s ++ rest).length, t') := by
  induction rest generalizing s t with
  | nil =>
    cases h
    rw [append_nil]
    rfl
  | cons c rest ih =>
    have hcode : (gramCode s % charMapRange ^ n * charMapRange + charMap c) % charMapRange ^ n =
        gramCode (s ++ [c]) % charMapRange ^ n := Windows.code_step ..
    have hlen : (s ++ [c]).length = s.length + 1 := by rw [length_append, length_singleton]
    rw [foldlM_cons, ngramStep]
    dsimp only
    rw [hcode, ← hlen, append_cons s c rest]
    rw [Windows.windowsBehind, ← hlen, map_append, pushAll_append] at h
    split_ifs at h ⊢ with hfull
    · obtain ⟨t1, hpush, h⟩ := bind_eq_some_iff.mp h
      have hgram : gramCode (s ++ [c]) % charMapRange ^ n = gramCode ((s ++ [c]).drop ((s ++ [c]).length - n)) :=
        Windows.code_mod charMap_lt hfull
      have hone : t.push i (base + ((gramCode (s ++ [c]) % charMapRange ^ n : ℕ) : ℤ)) = some t1 := by
        rw [hgram]
        have hcons := pushAll_cons t (i, base + (gramCode ((s ++ [c]).drop ((s ++ [c]).length - n)) : ℤ)) []
        rw [map_singleton, hcons, bind_eq_some_iff] at hpush
        obtain ⟨t2, hpush, hnil⟩ := hpush
        cases hnil
        exact hpush
      rw [hone]
      exact ih (s ++ [c]) h
    · exact ih (s ++ [c]) h

theorem setNgrams_eq (side : env.Side) {n : ℕ} (hn : 0 < n) (base : ℤ) {t' : Table ℤ}
    (h : t.pushAll (wordEntries (side.ngramItems n base) (finRange side.att.maxId)) = some t') :
    env.setNgrams n (charMapRange ^ n) base side.att t = some t' := by
  rw [setNgrams]
  generalize finRange side.att.maxId = words at h ⊢
  induction words generalizing t with
  | nil => exact h
  | cons i words ih =>
    rw [wordEntries, flatMap_cons, pushAll_append, bind_eq_some_iff] at h
    obtain ⟨t1, hword, hrest⟩ := h
    rw [Side.ngramItems, List.map_map, ← Windows.windowsBehind_nil hn] at hword
    have hloop := foldlM_ngramStep n base i (env.canonical (side.att.id2str i)) [] hword
    rw [foldlM_cons]
    have hstart : gramCode [] % charMapRange ^ n = 0 := zero_mod _
    rw [hstart, length_nil] at hloop
    rw [hloop]
    exact ih hrest

/-- The second pass writes the entries of a line, if there is room for them. -/
theorem secondPass_eq {config : List UInt8} {line : env.Line} (hread : env.readLine config = some line)
    (h1 : st.r.w2f1.pushAll (env.source.lineEntries st.currentFeature line) = some t1)
    (h2 : st.r.w2f2.pushAll (env.target.lineEntries st.currentFeature line) = some t2)
    (hcur : 0 ≤ st.currentFeature) (hbound : st.currentFeature + line.size ≤ st.r.nFeatures) :
    env.secondPass st config = some (fillLine st line t1 t2) := by
  rw [readLine] at hread
  rw [secondPass]
  dsimp only at hread ⊢
  generalize stripComment config = text at hread
  cases hcommand : configCommand text with
  | empty =>
    rw [hcommand] at hread
    cases hread
    cases h1
    cases h2
    rw [fillLine, lineWeights, FeatureLine.size, cast_zero, add_zero]
  | sharedWords =>
    rw [hcommand] at hread
    dsimp only at hread ⊢
    obtain ⟨⟨weight, threshold⟩, hscan, rfl⟩ := map_eq_some_iff.mp hread
    rw [hscan, ← foldlM_pair weight _ h1 h2 hcur hbound, sharedPairs, foldlM_filterMap]
    dsimp only
    congr 1
    funext st i1
    cases env.sharedWord threshold i1 with
    | none => rfl
    | some i2 => rfl
  | ngrams =>
    rw [hcommand] at hread
    dsimp only at hread ⊢
    obtain ⟨⟨n, weight⟩, hscan, hread⟩ := bind_eq_some_iff.mp hread
    dsimp only at hread
    split_ifs at hread with hn
    cases hread
    push Not at hn
    have hpos : 0 < n.toNat := by omega
    have hset1 : env.setNgrams n.toNat _ st.currentFeature env.wAttr1 st.r.w2f1 = some t1 := setNgrams_eq env.source hpos _ h1
    have hset2 : env.setNgrams n.toNat _ st.currentFeature env.wAttr2 st.r.w2f2 = some t2 := setNgrams_eq env.target hpos _ h2
    rw [hscan]
    dsimp only
    rw [if_pos ⟨by omega, by omega⟩, foldlM_setWeight weight st.currentFeature hcur _ st.r (by exact_mod_cast hbound)]
    dsimp only [bind, Option.bind]
    rw [hset1]
    dsimp only
    rw [hset2]
    rfl
  | wordList =>
    rw [hcommand] at hread
    dsimp only at hread ⊢
    obtain ⟨⟨weight, filename⟩, hscan, hread⟩ := bind_eq_some_iff.mp hread
    obtain ⟨wordlist, hopen, hread⟩ := bind_eq_some_iff.mp hread
    dsimp only at hread hopen
    split_ifs at hread with hvalid
    cases hread
    rw [hscan]
    dsimp only
    rw [hopen, ← foldlM_pair weight _ h1 h2 hcur hbound, foldlM_filterMap]
    dsimp only
    congr 1
    funext st textLine
    obtain ⟨nw, word1, word2⟩ := textLine
    rw [fillWordListLine, wordListPair]
    split_ifs with hnw
    · rfl
    · cases env.wAttr1.str2id word1 with
      | none => rfl
      | some i1 =>
        cases env.wAttr2.str2id word2 with
        | none => rfl
        | some i2 => rfl
  | charCount =>
    rw [hcommand] at hread
    dsimp only at hread ⊢
    obtain ⟨weight, hscan, rfl⟩ := map_eq_some_iff.mp hread
    cases h1
    cases h2
    rw [hscan]
    dsimp only
    rw [fillLine, lineWeights]
    dsimp only [FeatureLine.size]
    rw [cast_zero, add_zero]
  | unknown =>
    rw [hcommand] at hread
    cases hread
  | noCommand =>
    rw [hcommand] at hread
    cases hread

/-! ## The whole configuration -/

def Side.entries (side : env.Side) : ℤ → List env.Line → List (ℕ × ℤ)
  | _, [] => []
  | base, line :: lines => side.lineEntries base line ++ side.entries (base + line.size) lines

theorem Side.valuesOf_entries (side : env.Side) (base : ℤ) (lines : List env.Line) (i : Fin side.att.maxId) :
    valuesOf (side.entries base lines) i = side.features i base lines := by
  induction lines generalizing base with
  | nil => rfl
  | cons line lines ih => rw [entries, valuesOf_append, side.valuesOf_lineEntries, ih, features]

/-- The number of the features of all lines. -/
def sizes (lines : List env.Line) : ℕ := (lines.map FeatureLine.size).sum

theorem sizes_cons (line : env.Line) (lines : List env.Line) : sizes (line :: lines) = line.size + sizes lines := by
  rw [sizes, sizes, map_cons, sum_cons]

theorem foldlM_firstPass (config : List (List UInt8)) (st : FeatureCounts) :
    config.foldlM env.firstPass st = (config.mapM env.readLine).map fun lines => lines.foldl addLine st := by
  induction config generalizing st with
  | nil => rfl
  | cons line config ih =>
    rw [foldlM_cons, mapM_cons, firstPass_eq]
    cases env.readLine line with
    | none => rfl
    | some read =>
      refine (ih (addLine st read)).trans ?_
      cases config.mapM env.readLine with
      | none => rfl
      | some lines => rfl

theorem foldl_addLine (lines : List env.Line) (st : FeatureCounts) (base : ℤ) :
    lines.foldl addLine st = {
      nFeatures := st.nFeatures + sizes lines
      fcount1 := fun i => st.fcount1 i + (valuesOf (env.source.entries base lines) i).length
      fcount2 := fun i => st.fcount2 i + (valuesOf (env.target.entries base lines) i).length } := by
  induction lines generalizing st base with
  | nil => rfl
  | cons line lines ih =>
    rw [foldl_cons, ih (addLine st line) (base + line.size), addLine]
    congr 1
    · rw [sizes_cons, Nat.add_assoc]
    · funext i
      rw [Side.entries, valuesOf_append, length_append, Side.length_lineEntries]
      exact Nat.add_assoc ..
    · funext i
      rw [Side.entries, valuesOf_append, length_append, Side.length_lineEntries]
      exact Nat.add_assoc ..

def fillWeights : ℤ → List env.Line → (ℤ → ℤ) → ℤ → ℤ
  | _, [], fweight => fweight
  | base, line :: lines, fweight => fillWeights (base + line.size) lines (lineWeights base line fweight)

theorem foldlM_secondPass {config : List (List UInt8)} {lines : List env.Line} (hread : config.mapM env.readLine = some lines)
    (h1 : st.r.w2f1.pushAll (env.source.entries st.currentFeature lines) = some t1)
    (h2 : st.r.w2f2.pushAll (env.target.entries st.currentFeature lines) = some t2)
    (hcur : 0 ≤ st.currentFeature) (hbound : st.currentFeature + sizes lines ≤ st.r.nFeatures) :
    config.foldlM env.secondPass st = some {
      r := { st.r with w2f1 := t1, w2f2 := t2, fweight := fillWeights st.currentFeature lines st.r.fweight }
      currentFeature := st.currentFeature + sizes lines } := by
  induction config generalizing st lines with
  | nil =>
    rw [mapM_nil] at hread
    cases hread
    cases h1
    cases h2
    rw [sizes, map_nil, sum_nil, cast_zero, add_zero]
    rfl
  | cons line config ih =>
    rw [mapM_cons] at hread
    obtain ⟨read, hline, hread⟩ := bind_eq_some_iff.mp hread
    obtain ⟨rest, hrest, hread⟩ := bind_eq_some_iff.mp hread
    cases hread
    rw [Side.entries, pushAll_append, bind_eq_some_iff] at h1 h2
    obtain ⟨s1, hline1, h1⟩ := h1
    obtain ⟨s2, hline2, h2⟩ := h2
    rw [sizes_cons] at hbound
    push_cast at hbound
    rw [foldlM_cons, secondPass_eq hline hline1 hline2 hcur (by omega)]
    refine (ih hrest h1 h2 (by rw [fillLine]; dsimp only; omega) (by rw [fillLine]; dsimp only; omega)).trans ?_
    rw [fillLine, sizes_cons]
    push_cast
    rw [← add_assoc]
    rfl

theorem fillWeights_earlier (base : ℤ) (lines : List env.Line) (fweight : ℤ → ℤ) {f : ℤ} (hf : 0 < f) (hlt : f < base) :
    fillWeights base lines fweight f = fweight f := by
  induction lines generalizing base fweight with
  | nil => rfl
  | cons line lines ih =>
    rw [fillWeights, ih _ _ (by omega)]
    cases line with
    | nothing => rfl
    | pairs weight words => exact if_neg (by omega)
    | ngrams n weight => exact if_neg (by omega)
    | charCount weight => exact update_of_ne hf.ne' ..

/-- A weight is set by the line of its feature alone. -/
theorem fillWeights_eq (base : ℤ) (lines : List env.Line) (fweight : ℤ → ℤ) {f : ℤ} (hf : 0 < f) (hnone : fweight f = 0) :
    fillWeights base lines fweight f = FeatureLine.featureWeight base lines f := by
  induction lines generalizing base fweight with
  | nil => exact hnone
  | cons line lines ih =>
    rw [fillWeights, FeatureLine.featureWeight]
    split_ifs with hin
    · rw [fillWeights_earlier _ _ _ hf hin.2]
      cases line with
      | nothing => exact absurd hin (by simp [FeatureLine.size])
      | pairs weight words => exact if_pos hin
      | ngrams n weight => exact if_pos hin
      | charCount weight => exact absurd hin (by simp [FeatureLine.size])
    · apply ih
      cases line with
      | nothing => exact hnone
      | pairs weight words => exact (if_neg hin).trans hnone
      | ngrams n weight => exact (if_neg hin).trans hnone
      | charCount weight => exact (update_of_ne hf.ne' ..).trans hnone

theorem fillWeights_zero (base : ℤ) (hbase : 0 < base) (lines : List env.Line) (fweight : ℤ → ℤ) :
    fillWeights base lines fweight 0 = lines.foldl FeatureLine.newCharCount (fweight 0) := by
  induction lines generalizing base fweight with
  | nil => rfl
  | cons line lines ih =>
    rw [fillWeights, ih _ (by omega), foldl_cons]
    congr 1
    cases line with
    | nothing => rfl
    | pairs weight words => exact if_neg (by omega)
    | ngrams n weight => exact if_neg (by omega)
    | charCount weight => exact update_self (0 : ℤ) weight fweight

/-! ## The maps -/

theorem setCharCounts_eq (att : WordAttribute) (t : Table ℤ) :
    setCharCounts att t = t.pushAll (wordEntries (fun i => [att.id2strlen i]) (finRange att.maxId)) := by
  rw [setCharCounts]
  induction finRange att.maxId generalizing t with
  | nil => rfl
  | cons i words ih =>
    rw [foldlM_cons, wordEntries, flatMap_cons, map_singleton, singleton_append, pushAll_cons]
    congr 1
    funext t
    exact ih t

theorem wordEntries_lt {n : ℕ} {α : Type} (items : Fin n → List α) (words : List (Fin n)) :
    ∀ e ∈ wordEntries items words, e.1 < n := by
  intro e he
  obtain ⟨i, -, he⟩ := mem_flatMap.mp he
  obtain ⟨v, -, rfl⟩ := mem_map.mp he
  exact i.isLt

theorem Side.lineEntries_lt (side : env.Side) (base : ℤ) (line : env.Line) :
    ∀ e ∈ side.lineEntries base line, e.1 < side.att.maxId := by
  cases line with
  | nothing => exact fun e he => by cases he
  | pairs weight words =>
    rw [lineEntries]
    induction words generalizing base with
    | nil => exact fun e he => by cases he
    | cons p words ih =>
      rw [pairEntries]
      exact forall_mem_cons.mpr ⟨(side.word p).isLt, ih _⟩
  | ngrams n weight => exact wordEntries_lt _ _
  | charCount weight => exact fun e he => by cases he

theorem Side.entries_lt (side : env.Side) (base : ℤ) (lines : List env.Line) :
    ∀ e ∈ side.entries base lines, e.1 < side.att.maxId := by
  induction lines generalizing base with
  | nil => exact fun e he => by cases he
  | cons line lines ih =>
    rw [entries]
    exact forall_mem_append.mpr ⟨side.lineEntries_lt base line, ih _⟩

/-- The counts of the first pass. -/
def Side.counts (side : env.Side) (lines : List env.Line) (i : ℕ) : ℕ :=
  (if i < side.att.maxId then 1 else 0) + (valuesOf (side.entries 1 lines) i).length

theorem valuesOf_eq_nil {α : Type} {entries : List (ℕ × α)} {i : ℕ} (h : ∀ e ∈ entries, e.1 ≠ i) : valuesOf entries i = [] := by
  rw [valuesOf, filterMap_eq_nil_iff]
  exact fun e he => if_neg (h e he)

/-- With the counts of the first pass the second one fills each slice with the entries of its word. -/
theorem Side.fill (side : env.Side) (lines : List env.Line) :
    ∃ t t' : Table ℤ, (initial side.att.maxId (side.counts lines) fun _ => 0).pushAll (side.entries 1 lines) = some t ∧
      setCharCounts side.att t = some t' ∧ (∀ i ≤ side.att.maxId, t'.ptr i = start (side.counts lines) i) ∧
      ∀ i : Fin side.att.maxId, t'.slice i = side.att.id2strlen i :: (side.features i 1 lines).reverse := by
  have hlast : side.counts lines side.att.maxId = 0 := by
    rw [counts, if_neg (lt_irrefl _), valuesOf_eq_nil fun e he => (side.entries_lt 1 lines e he).ne]
    rfl
  have hstart := filled_initial hlast fun _ => (0 : ℤ)
  have hcounts : ∀ i < side.att.maxId, (valuesOf ([] ++ side.entries 1 lines ++
      wordEntries (fun i => [side.att.id2strlen i]) (finRange side.att.maxId)) i).length = side.counts lines i := by
    intro i hi
    rw [nil_append, valuesOf_append, length_append, counts, if_pos hi,
      valuesOf_wordEntries (fun i => [side.att.id2strlen i]) ⟨i, hi⟩]
    exact Nat.add_comm ..
  obtain ⟨t, hfill, ht⟩ := hstart.pushAll (side.entries 1 lines) (side.entries_lt 1 lines) fun j hj =>
    (valuesOf_length_le _ _ j).trans (hcounts j hj).le
  obtain ⟨t', hfill', ht'⟩ := ht.pushAll _ (wordEntries_lt (fun i => [side.att.id2strlen i]) (finRange side.att.maxId))
    fun j hj => (hcounts j hj).le
  refine ⟨t, t', hfill, (setCharCounts_eq side.att t).trans hfill', fun i hi => ?_, fun i => ?_⟩
  · obtain hlt | rfl := Nat.lt_or_eq_of_le hi
    · exact (ht'.slice_eq hcounts hlt).1
    · exact ht'.last
  · rw [(ht'.slice_eq hcounts i.isLt).2, nil_append, valuesOf_append, valuesOf_wordEntries, side.valuesOf_entries,
      reverse_append]
    rfl

theorem checkPointers_eq {n : ℕ} {count : ℕ → ℕ} (h : ∀ i ≤ n, t.ptr i = start count i) :
    checkPointers n (cumulate n count) t = true := by
  rw [checkPointers, List.all_eq_true]
  intro i hi
  rw [mem_range'_1] at hi
  obtain ⟨k, rfl⟩ : ∃ k, i = k + 1 := ⟨i - 1, by omega⟩
  rw [decide_eq_true_eq, h _ (by omega), h _ (by omega), cumulate_eq, cumulate_eq, if_pos (by omega), if_pos (by omega)]
  rfl

/-- The second pass never fails where the first one has not, and the maps say what the configuration does. -/
theorem createFeatureMaps_eq (env : AlignCorpora) (config : List (List UInt8)) :
    match env.readConfig config with
    | none => env.createFeatureMaps config = none
    | some lines => ∃ fms, env.createFeatureMaps config = some fms ∧ env.MapsHold lines fms ∧ fms.vstack = [] := by
  rw [readConfig]
  split_ifs with hempty
  · rw [createFeatureMaps]
    exact if_pos hempty
  · rw [createFeatureMaps]
    dsimp only
    rw [if_neg hempty]
    dsimp only [bind, Option.bind, pure]
    rw [foldlM_firstPass]
    cases hread : config.mapM env.readLine with
    | none => rfl
    | some lines =>
      obtain ⟨t1, t1', hfill1, hset1, hptr1, hslice1⟩ := env.source.fill lines
      obtain ⟨t2, t2', hfill2, hset2, hptr2, hslice2⟩ := env.target.fill lines
      rw [map_some, foldl_addLine lines env.initialCounts 1]
      dsimp only
      rw [foldlM_secondPass hread hfill1 hfill2 zero_le_one (by dsimp only [initialCounts]; push_cast; exact le_rfl)]
      dsimp only
      rw [show setCharCounts env.wAttr1 t1 = some t1' from hset1]
      dsimp only
      rw [show setCharCounts env.wAttr2 t2 = some t2' from hset2]
      dsimp only
      refine ⟨_, if_pos (Bool.and_eq_true_iff.mpr ⟨checkPointers_eq hptr1, checkPointers_eq hptr2⟩), ⟨rfl, hslice1, hslice2, fun f hf => ?_, ?_⟩, rfl⟩
      · exact fillWeights_eq 1 lines _ hf rfl
      · exact fillWeights_zero 1 one_pos lines fun _ => 0

/-! ## Comparing regions -/

theorem slice_eq {i : ℕ} {c : ℤ} {l : List ℤ} (h : t.slice i = c :: l) :
    charCount t i = c ∧ wordFeatures t i = l := by
  rw [Table.slice] at h
  obtain ⟨k, hk⟩ : ∃ k, t.ptr (i + 1) - t.ptr i = k + 1 := by
    cases hk : t.ptr (i + 1) - t.ptr i with
    | zero =>
      rw [hk] at h
      cases h
    | succ k => exact ⟨k, rfl⟩
  rw [hk, range'_succ, map_cons] at h
  obtain ⟨hhead, htail⟩ := List.cons.inj h
  refine ⟨hhead, ?_⟩
  rw [wordFeatures, show t.ptr (i + 1) - (t.ptr i + 1) = k by omega]
  exact htail

theorem pairFeatures_mem {P : Type} (word : P → ℕ) (i : ℕ) (base : ℤ) (pairs : List P) :
    ∀ f ∈ pairFeatures word i base pairs, base ≤ f ∧ f < base + (pairs.length : ℤ) := by
  induction pairs generalizing base with
  | nil => exact fun f hf => by cases hf
  | cons p pairs ih =>
    intro f hf
    rw [length_cons]
    push_cast
    obtain hf | hf := mem_append.mp hf
    · split_ifs at hf
      · rw [mem_singleton] at hf
        omega
      · cases hf
    · have h := ih (base + 1) f hf
      omega

theorem Side.lineFeatures_mem (side : env.Side) (i : Fin side.att.maxId) (base : ℤ) (line : env.Line) :
    ∀ f ∈ side.lineFeatures base line i, base ≤ f ∧ f < base + line.size := by
  cases line with
  | nothing => exact fun f hf => by cases hf
  | pairs weight words => exact pairFeatures_mem _ _ _ _
  | ngrams n weight =>
    intro f hf
    obtain ⟨g, hg, rfl⟩ := mem_map.mp hf
    have hlt : gramCode g < charMapRange ^ g.length := Windows.code_lt charMap_lt g
    rw [Windows.length_of_mem_windows hg] at hlt
    rw [FeatureLine.size]
    omega
  | charCount weight => exact fun f hf => by cases hf

theorem Side.features_mem (side : env.Side) (i : Fin side.att.maxId) (base : ℤ) (lines : List env.Line) :
    ∀ f ∈ side.features i base lines, base ≤ f ∧ f < base + (sizes lines : ℤ) := by
  induction lines generalizing base with
  | nil => exact fun f hf => by cases hf
  | cons line lines ih =>
    intro f hf
    rw [sizes_cons]
    push_cast
    obtain hf | hf := mem_append.mp hf
    · have h := side.lineFeatures_mem i base line f hf
      omega
    · have h := ih _ f hf
      omega

/-- A map from words to features with its side of the configuration. -/
structure Side.MapHolds (side : env.Side) (lines : List env.Line) (w2f : Table ℤ) (fms : FeatureMaps) : Prop where
  nFeatures : fms.nFeatures = env.featureCount lines
  slices : ∀ id : Fin side.att.maxId, w2f.slice id = side.att.id2strlen id :: (side.features id 1 lines).reverse

/-- The features of a list of words, in the order in which they are read. -/
def Side.wordFeatures (side : env.Side) (lines : List env.Line) (ids : List (Fin side.att.maxId)) : List ℤ :=
  ids.flatMap fun id => (side.features id 1 lines).reverse

variable {lines : List env.Line} {fms : FeatureMaps} {side : env.Side} {w2f : Table ℤ} {σ : Type}

theorem Side.mem_wordFeatures {ids : List (Fin side.att.maxId)} {f : ℤ} (hf : f ∈ side.wordFeatures lines ids) :
    1 ≤ f ∧ f < env.featureCount lines := by
  obtain ⟨id, -, hf⟩ := mem_flatMap.mp hf
  have h := side.features_mem id 1 lines f (mem_reverse.mp hf)
  rw [featureCount]
  rw [sizes] at h
  push_cast at h ⊢
  omega

theorem Side.count_wordFeatures (ids : List (Fin side.att.maxId)) (f : ℤ) :
    (side.wordFeatures lines ids).count f = (ids.flatMap fun id => side.features id 1 lines).count f := by
  rw [wordFeatures, count_flatMap, count_flatMap]
  congr 1
  apply map_congr_left
  intro id _
  exact count_reverse

/-- A loop over the features of one word stays within the vectors. -/
theorem Side.MapHolds.foldlM_word (h : side.MapHolds lines w2f fms) (step : σ → ℤ → σ) (id : Fin side.att.maxId) (st : σ) :
    (CWB.wordFeatures w2f id).foldlM (fms.atFeature step) st = some ((side.features id 1 lines).reverse.foldl step st) := by
  rw [(slice_eq (h.slices id)).2]
  apply CountVector.foldlM_guard
  intro f hf
  have hmem := side.features_mem id 1 lines f (mem_reverse.mp hf)
  rw [h.nFeatures, featureCount]
  rw [sizes] at hmem
  push_cast at hmem ⊢
  omega

theorem Side.MapHolds.foldlM_ids (h : side.MapHolds lines w2f fms) (step : σ → ℤ → σ) (ids : List (Fin side.att.maxId)) (st : σ) :
    ids.foldlM (fun st (id : Fin side.att.maxId) => (CWB.wordFeatures w2f id).foldlM (fms.atFeature step) st) st =
      some ((side.wordFeatures lines ids).foldl step st) := by
  induction ids generalizing st with
  | nil => rfl
  | cons id ids ih =>
    rw [foldlM_cons, h.foldlM_word, wordFeatures, flatMap_cons, foldl_append]
    exact ih _

/-- The same with the character counts. -/
theorem Side.MapHolds.foldlM_counts (h : side.MapHolds lines w2f fms) (step : σ → ℤ → σ) (ids : List (Fin side.att.maxId))
    (st : σ) (cc : ℤ) :
    ids.foldlM (fun (st : σ × ℤ) (id : Fin side.att.maxId) => do
      let fcount ← (CWB.wordFeatures w2f id).foldlM (fms.atFeature step) st.1
      pure (fcount, st.2 + CWB.charCount w2f id)) (st, cc) =
      some ((side.wordFeatures lines ids).foldl step st, cc + (ids.map side.att.id2strlen).sum) := by
  induction ids generalizing st cc with
  | nil =>
    rw [map_nil, sum_nil, add_zero]
    rfl
  | cons id ids ih =>
    rw [foldlM_cons, h.foldlM_word, (slice_eq (h.slices id)).1, wordFeatures, flatMap_cons, foldl_append,
      map_cons, sum_cons, ← add_assoc]
    exact ih _ _

theorem getFvector_eq (hempty : ∀ v ∈ fms.vstack, v = fun _ => 0) :
    fms.getFvector = (fun _ => 0, { fms with vstack := fms.vstack.tail }) := by
  obtain ⟨nFeatures, w2f1, w2f2, fweight, vstack⟩ := fms
  cases vstack with
  | nil => rfl
  | cons v next =>
    rw [FeatureMaps.getFvector]
    dsimp only
    rw [hempty v mem_cons_self]
    rfl

/-- What the loops compute: the matches sum up to the similarity, and the vector is empty again. -/
theorem loops_eq (h : env.MapsHold lines fms) (ids1 : List (Fin env.source.att.maxId)) (ids2 : List (Fin env.target.att.maxId)) :
    let counted := (env.source.wordFeatures lines ids1).foldl CountVector.bump fun _ => (0 : ℤ)
    let taken := (env.target.wordFeatures lines ids2).foldl (CountVector.takeOne fms.fweight) (counted, 0)
    taken.2 + fms.fweight 0 * min (ids1.map env.source.att.id2strlen).sum (ids2.map env.target.att.id2strlen).sum =
        env.similarity lines ids1 ids2 ∧
      (env.source.wordFeatures lines ids1).foldl CountVector.clear taken.1 = fun _ => 0 := by
  intro counted taken
  have hbump : ∀ f, counted f = (env.source.wordFeatures lines ids1).count f := fun f =>
    (CountVector.foldl_bump ..).trans (zero_add _)
  have hsim : taken.2 = _ := CountVector.foldl_takeOne fms.fweight (Finset.Ico 1 (env.featureCount lines))
    (env.target.wordFeatures lines ids2) (fun f hf => Finset.mem_Ico.mpr (Side.mem_wordFeatures hf)) counted
    (fun f => by rw [hbump]; exact Int.natCast_nonneg _) 0
  refine ⟨?_, ?_⟩
  · rw [hsim, similarity, zero_add, h.fweight_zero]
    congr 1
    apply Finset.sum_congr rfl
    intro f hf
    have hpos : 0 < f := (Finset.mem_Ico.mp hf).1
    rw [h.fweight f hpos, hbump, Side.count_wordFeatures, Side.count_wordFeatures]
  · funext f
    rw [CountVector.foldl_clear]
    split_ifs with hf
    · rfl
    · apply CountVector.foldl_takeOne_zero
      exact (hbump f).trans (by rw [count_eq_zero_of_not_mem hf]; rfl)

/-- `feature_match` computes the similarity, and its vector is empty before and after. -/
theorem featureMatch_eq (h : env.MapsHold lines fms) (hempty : ∀ v ∈ fms.vstack, v = fun _ => 0) (f1 l1 f2 l2 : ℤ) :
    env.featureMatch fms f1 l1 f2 l2 =
      some (env.similarity lines (env.wAttr1.regionIds env.sAttr1 f1 l1) (env.wAttr2.regionIds env.sAttr2 f2 l2),
        { fms with vstack := (fun _ => 0) :: fms.vstack.tail }) := by
  rw [featureMatch, getFvector_eq hempty]
  dsimp only
  generalize env.wAttr1.regionIds env.sAttr1 f1 l1 = ids1
  generalize env.wAttr2.regionIds env.sAttr2 f2 l2 = ids2
  have h1 : env.source.MapHolds lines fms.w2f1 { fms with vstack := fms.vstack.tail } := ⟨h.nFeatures, h.slices1⟩
  have h2 : env.target.MapHolds lines fms.w2f2 { fms with vstack := fms.vstack.tail } := ⟨h.nFeatures, h.slices2⟩
  obtain ⟨hsim, hvector⟩ := loops_eq h ids1 ids2
  refine (congrArg (· >>= _) (h1.foldlM_counts CountVector.bump ids1 (fun _ => (0 : ℤ)) 0)).trans ?_
  refine (congrArg (· >>= _) (h2.foldlM_counts (CountVector.takeOne fms.fweight) ids2 (_, 0) 0)).trans ?_
  refine (congrArg (· >>= _) (h1.foldlM_ids CountVector.clear ids1 _)).trans ?_
  have hmin : ∀ c d : ℤ, (if 0 + c ≤ 0 + d then 0 + c else 0 + d) = min c d := fun c d => by
    rw [zero_add, zero_add, min_def]
  rw [hvector, ← hsim, ← hmin]
  rfl

theorem featureMatches_eq (h : env.MapsHold lines fms) (hempty : ∀ v ∈ fms.vstack, v = fun _ => 0)
    (calls : List (ℤ × ℤ × ℤ × ℤ)) :
    ∃ vstack, env.featureMatches fms calls = some (calls.map fun (f1, l1, f2, l2) =>
        env.similarity lines (env.wAttr1.regionIds env.sAttr1 f1 l1) (env.wAttr2.regionIds env.sAttr2 f2 l2),
        { fms with vstack }) ∧
      vstack = if calls = [] then fms.vstack else (fun _ => 0) :: fms.vstack.tail := by
  induction calls generalizing fms with
  | nil => exact ⟨_, rfl, rfl⟩
  | cons call calls ih =>
    obtain ⟨f1, l1, f2, l2⟩ := call
    have hmatch := featureMatch_eq h hempty f1 l1 f2 l2
    have hnext : env.MapsHold lines { fms with vstack := (fun _ => 0) :: fms.vstack.tail } :=
      ⟨h.nFeatures, h.slices1, h.slices2, h.fweight, h.fweight_zero⟩
    obtain ⟨vstack, hrun, hstack⟩ := ih hnext (forall_mem_cons.mpr ⟨rfl, fun v hv => hempty v (mem_of_mem_tail hv)⟩)
    refine ⟨vstack, ?_, ?_⟩
    · rw [featureMatches, hmatch]
      refine (congrArg (· >>= _) hrun).trans ?_
      rfl
    · rw [hstack, if_neg (cons_ne_nil _ _)]
      exact ite_self _

end AlignCorpora

end CWB
