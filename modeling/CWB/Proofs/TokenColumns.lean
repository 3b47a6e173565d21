import CWB.Sanity.EncodeLine
import CWB.Sanity.Interned

/-! Token lines are encoded without loss. A p-attribute that has received the values `vals` holds
their different strings in the order of first occurrence; each column of a line is one more
value for its attribute. -/

namespace CWB

open Option List StringTable

/-- Hash, files and byte counter after the values `vals`. -/
structure WAttr.Holds (w : WAttr) (vals : List (List UInt8)) : Prop where
  interned : Interned w.lh (firstOccurrences vals)
  position_eq : w.position = (bytes (firstOccurrences vals)).length
  lex_eq : w.lex = bytes (firstOccurrences vals)
  lexidx_eq : w.lexidx = offsets (firstOccurrences vals)
  corpus_eq : w.corpus = vals.map fun v => ((firstOccurrences vals).idxOf v : ℤ)
  featureSet_eq : w.featureSet = false

variable {opts : EncodeOptions} {fill : FillRate} {makeSet : MakeSet} {w : WAttr} {vals : List (List UInt8)}
  {v : List UInt8}

theorem holds_new (buckets : ℤ) : WAttr.Holds { lh := clNewLexhash buckets, featureSet := false } [] where
  interned := interned_new buckets
  position_eq := rfl
  lex_eq := rfl
  lexidx_eq := rfl
  corpus_eq := rfl
  featureSet_eq := rfl

/-- The IDs of the tokens that are there already do not change. -/
theorem map_idxOf_snoc (vals : List (List UInt8)) (v : List UInt8) :
    ((vals ++ [v]).map fun u => ((firstOccurrences (vals ++ [v])).idxOf u : ℤ)) =
      (vals.map fun u => ((firstOccurrences vals).idxOf u : ℤ)) ++ [((firstOccurrences (vals ++ [v])).idxOf v : ℤ)] := by
  rw [map_append, map_singleton]
  congr 1
  refine map_congr_left fun u hu => ?_
  obtain ⟨more, hmore⟩ := isPrefix_firstOccurrences vals [v]
  rw [← hmore, idxOf_append_of_mem (mem_firstOccurrences.mpr hu)]

theorem addToken_holds (fill : FillRate) (makeSet : MakeSet) (h : w.Holds vals) (hlen : v.length < CL_MAX_LINE_LENGTH)
    (hsize : (bytes (firstOccurrences (vals ++ [v]))).length < 2 ^ 31) :
    ∃ w', w.addToken fill makeSet v = some w' ∧ w'.Holds (vals ++ [v]) := by
  have htrunc : truncateValue v = v := if_neg (by omega)
  rw [WAttr.addToken, h.featureSet_eq]
  simp only [Bool.false_eq_true, if_false, htrunc]
  by_cases hv : v ∈ firstOccurrences vals
  · have hfo : firstOccurrences (vals ++ [v]) = firstOccurrences vals := by rw [firstOccurrences_snoc, if_pos hv]
    have hid := interned_id_of_mem h.interned hv
    rw [if_neg (by rw [hid]; omega)]
    refine ⟨_, rfl, by rw [hfo]; exact h.interned, by rw [hfo]; exact h.position_eq, by rw [hfo]; exact h.lex_eq,
      by rw [hfo]; exact h.lexidx_eq, ?_, rfl⟩
    rw [map_idxOf_snoc, h.corpus_eq, hid, hfo]
  · have hfo : firstOccurrences (vals ++ [v]) = firstOccurrences vals ++ [v] := by rw [firstOccurrences_snoc, if_neg hv]
    have hid := interned_id_of_notMem h.interned hv
    obtain ⟨lh, hadd, hint⟩ := interned_add_new fill h.interned hv
    have hbytes : (bytes (firstOccurrences (vals ++ [v]))).length = w.position + v.length + 1 := by
      rw [hfo, bytes_snoc, h.position_eq]
      simp only [length_append, length_singleton]
      omega
    rw [if_pos (by rw [hid]; omega), if_neg (by omega), hadd]
    refine ⟨_, rfl, by rw [hfo]; exact hint, hbytes.symm, ?_, ?_, ?_, rfl⟩
    · rw [hfo, bytes_snoc, h.lex_eq]
      rfl
    · rw [hfo, offsets_snoc, h.lexidx_eq, h.position_eq]
    · rw [map_idxOf_snoc, h.corpus_eq, interned_id_of_mem hint (by simp), hfo]

/-! ## One line -/

/-- The field of column `c`, after blank stripping and entity decoding, or the undefined value
if it is empty or not there. -/
def columnValue (opts : EncodeOptions) (line : List UInt8) (c : ℕ) : List UInt8 :=
  fieldValue opts ((line.splitOnP (· ∈ opts.fieldSeparators))[c]?)

/-- `column c` is what attribute `c` of the list receives, from the field at hand and those left. -/
theorem wattrLoop_holds (fill : FillRate) (makeSet : MakeSet) {ws : List WAttr} (field last : Option (List UInt8))
    (received : ℕ → List (List UInt8)) (column : ℕ → List UInt8) (hws : ∀ c (w : WAttr), ws[c]? = some w → w.Holds (received c))
    (hfirst : column 0 = fieldValue opts field)
    (hleft : ∀ k, column (k + 1) = fieldValue opts (columnsLeft opts.fieldSeparators last)[k]?)
    (hlen : ∀ c < ws.length, (column c).length < CL_MAX_LINE_LENGTH)
    (hsize : ∀ c < ws.length, (bytes (firstOccurrences (received c ++ [column c]))).length < 2 ^ 31) :
    ∃ ws' last', wattrLoop opts fill makeSet ws field last = some (ws', last') ∧ ws'.length = ws.length ∧
      ∀ c (w : WAttr), ws'[c]? = some w → w.Holds (received c ++ [column c]) := by
  induction ws generalizing field last received column with
  | nil => exact ⟨[], last, rfl, rfl, fun c w hw => by cases hw⟩
  | cons w ws ih =>
    obtain ⟨w', hadd, hw'⟩ := addToken_holds fill makeSet (hws 0 w rfl)
      (hlen 0 (by simp)) (hsize 0 (by simp))
    rw [hfirst] at hadd
    rw [wattrLoop, hadd]
    have hnext := encodeStrtok_left opts.fieldSeparators last
    rcases hstrtok : encodeStrtok none opts.fieldSeparators last with ⟨field1, last1⟩
    simp only [hstrtok] at hnext
    obtain ⟨ws', last', hloop, hlength, hih⟩ := ih field1 last1
      (fun c => received (c + 1)) (fun c => column (c + 1))
      (fun c w hw => hws (c + 1) w hw)
      (by rw [hleft 0]; exact fieldValue_congr (hnext 0).1.symm)
      (fun k => by rw [hleft (k + 1)]; exact fieldValue_congr (hnext k).2.symm)
      (fun c hc => hlen (c + 1) (Nat.succ_lt_succ hc)) (fun c hc => hsize (c + 1) (Nat.succ_lt_succ hc))
    refine ⟨w' :: ws', last', ?_, by rw [length_cons, length_cons, hlength], ?_⟩
    · simp only [bind_eq_bind, bind_some, hloop, Option.pure_def]
    · intro c u hu
      cases c with
      | zero =>
        cases hu
        exact hw'
      | succ c => exact hih c u hu

theorem encodeAddWattrLine_holds (fill : FillRate) (makeSet : MakeSet) {ws : List WAttr} (last : Option (List UInt8))
    (line : List UInt8) {received : ℕ → List (List UInt8)} (hws : ∀ c (w : WAttr), ws[c]? = some w → w.Holds (received c))
    (hlen : ∀ c < ws.length, (columnValue opts line c).length < CL_MAX_LINE_LENGTH)
    (hsize : ∀ c < ws.length, (bytes (firstOccurrences (received c ++ [columnValue opts line c]))).length < 2 ^ 31) :
    ∃ ws' last', encodeAddWattrLine opts fill makeSet (ws, last) line = some (ws', last') ∧ ws'.length = ws.length ∧
      ∀ c (w : WAttr), ws'[c]? = some w → w.Holds (received c ++ [columnValue opts line c]) := by
  have hcall : encodeStrtok (some line) opts.fieldSeparators last = encodeStrtok none opts.fieldSeparators (some line) := rfl
  have hnext := encodeStrtok_left opts.fieldSeparators (some line)
  rw [encodeAddWattrLine, hcall]
  rcases hstrtok : encodeStrtok none opts.fieldSeparators (some line) with ⟨field, last1⟩
  simp only [hstrtok] at hnext
  apply wattrLoop_holds fill makeSet _ _ received (columnValue opts line) hws
  · exact fieldValue_congr (hnext 0).1.symm
  · intro k
    exact fieldValue_congr (hnext k).2.symm
  · exact hlen
  · exact hsize

/-! ## All lines -/

theorem mem_of_mem_splitOnP {p : UInt8 → Bool} {s piece : List UInt8} (hpiece : piece ∈ s.splitOnP p) {x : UInt8}
    (hx : x ∈ piece) : x ∈ s := by
  induction s generalizing piece with
  | nil =>
    rw [splitOnP_nil, mem_singleton] at hpiece
    rw [hpiece] at hx
    exact hx
  | cons c s ih =>
    rw [splitOnP_cons_eq_if_modifyHead] at hpiece
    split_ifs at hpiece
    · obtain rfl | h := mem_cons.mp hpiece
      · cases hx
      · exact mem_cons_of_mem c (ih h hx)
    · rcases hsplit : s.splitOnP p with _ | ⟨first, rest⟩
      · rw [hsplit] at hpiece
        cases hpiece
      · rw [hsplit, modifyHead_cons] at hpiece
        obtain rfl | h := mem_cons.mp hpiece
        · obtain rfl | hx := mem_cons.mp hx
          · exact mem_cons_self
          · exact mem_cons_of_mem c (ih (by rw [hsplit]; exact mem_cons_self) hx)
        · exact mem_cons_of_mem c (ih (by rw [hsplit]; exact mem_cons_of_mem first h) hx)

theorem zero_notMem_columnValue (hundef : 0 ∉ opts.undefValue) {line : List UInt8} (hline : 0 ∉ line) (c : ℕ) :
    0 ∉ columnValue opts line c := by
  have hfield : ∀ f, (line.splitOnP (· ∈ opts.fieldSeparators))[c]? = some f → 0 ∉ f := by
    intro f hf h0
    exact hline (mem_of_mem_splitOnP (mem_of_getElem? hf) h0)
  have hdecode : ∀ f : List UInt8, 0 ∉ f → 0 ∉ (if opts.xmlAware then clXmlEntityDecode f else f) := by
    intro f hf
    split_ifs
    · rw [clXmlEntityDecode_eq hf]
      exact zero_notMem_decodeEntities hf
    · exact hf
  unfold columnValue fieldValue
  generalize (line.splitOnP (· ∈ opts.fieldSeparators))[c]? = field at hfield ⊢
  cases field with
  | none => cases opts.stripBlanks <;> exact hundef
  | some f =>
    have hf := hfield f rfl
    cases hstrip : opts.stripBlanks with
    | false =>
      cases f with
      | nil => exact hundef
      | cons c f => exact hdecode _ hf
    | true =>
      have hf' : 0 ∉ (f.rdropWhile (· = 32)).dropWhile (· = 32) := fun h0 =>
        hf ((List.rdropWhile_prefix _ f).subset ((dropWhile_suffix _).subset h0))
      simp only [if_true, map_some]
      rcases hd : (f.rdropWhile (· = 32)).dropWhile (· = 32) with _ | ⟨b, f'⟩
      · rw [hd]
        exact hundef
      · rw [hd] at hf' ⊢
        exact hdecode _ hf'

/-- The values of a column of all lines. -/
def columnValues (opts : EncodeOptions) (lines : List (List UInt8)) (c : ℕ) : List (List UInt8) :=
  lines.map (columnValue opts · c)

theorem encodeTokenLines_holds (fill : FillRate) (makeSet : MakeSet) (buckets : List ℤ) (lines : List (List UInt8))
    (hlen : ∀ line ∈ lines, ∀ c < buckets.length, (columnValue opts line c).length < CL_MAX_LINE_LENGTH)
    (hsize : ∀ c < buckets.length, (bytes (firstOccurrences (columnValues opts lines c))).length < 2 ^ 31) :
    ∃ ws last, encodeTokenLines opts fill makeSet (buckets.map (·, false)) lines = some (ws, last) ∧
      ws.length = buckets.length ∧ ∀ c (w : WAttr), ws[c]? = some w → w.Holds (columnValues opts lines c) := by
  induction lines using reverseRecOn with
  | nil =>
    refine ⟨_, none, rfl, by simp, fun c w hw => ?_⟩
    rw [List.map_map, getElem?_map] at hw
    obtain ⟨b, -, rfl⟩ := map_eq_some_iff.mp hw
    exact holds_new b
  | append_singleton lines line ih =>
    have hsnoc : ∀ c, columnValues opts (lines ++ [line]) c = columnValues opts lines c ++ [columnValue opts line c] := by
      intro c
      simp [columnValues]
    obtain ⟨ws, last, hrun, hlength, hws⟩ := ih (fun l hl => hlen l (by simp [hl])) fun c hc =>
      lt_of_le_of_lt (length_bytes_le (isPrefix_firstOccurrences _ [columnValue opts line c]))
        (by rw [← hsnoc]; exact hsize c hc)
    obtain ⟨ws', last', hline, hlength', hws'⟩ := encodeAddWattrLine_holds fill makeSet last line hws
      (fun c hc => hlen line (by simp) c (by omega))
      (fun c hc => by rw [← hsnoc]; exact hsize c (by omega))
    refine ⟨ws', last', ?_, by omega, ?_⟩
    · rw [encodeTokenLines] at hrun ⊢
      rw [foldlM_append, hrun]
      simp [hline]
    · intro c w hw
      rw [hsnoc]
      exact hws' c w hw

end CWB

/-! A token that `cwb-decode -Cx` prints and `cwb-encode -x` reads again. Escaping leaves no
`<` and no separator in a value, so the line is a token line with one column for each value,
and each column is decoded to its value. -/

namespace CWB

/-- A value without control characters. -/
def Printable (v : List UInt8) : Prop := ∀ c ∈ v, 32 ≤ c

instance (v : List UInt8) : Decidable (Printable v) := inferInstanceAs (Decidable (∀ c ∈ v, 32 ≤ c))

variable {v : List UInt8} {c : UInt8}

theorem escapeChar_printable (hc : 32 ≤ c) : Printable (escapeChar c) := by
  unfold escapeChar Printable
  split_ifs <;> simp [hc]

theorem escapeChar_lt : 60 ∉ escapeChar c := by
  unfold escapeChar
  split_ifs <;> first | decide | (rw [List.mem_singleton]; intro h; simp_all)

theorem escapeChar_ne_nil : escapeChar c ≠ [] := by
  unfold escapeChar
  split_ifs <;> simp

theorem escaped_printable (hv : Printable v) : Printable (v.flatMap escapeChar) := by
  intro b hb
  obtain ⟨c, hc, hb⟩ := List.mem_flatMap.mp hb
  exact escapeChar_printable (hv c hc) b hb

theorem entityAt_ne {s : List UInt8} (hc : c ≠ 38) : entityAt (c :: s) = none := by
  rw [entityAt, List.find?_eq_none]
  intro e he
  have hfirst : e.1.head? = some 38 := by
    simp only [entities, List.mem_cons, List.not_mem_nil, or_false] at he
    obtain rfl | rfl | rfl | rfl | rfl := he <;> rfl
  rw [List.isPrefixOf_iff_prefix]
  intro hp
  obtain ⟨more, hmore⟩ := hp
  cases hname : e.1 with
  | nil =>
    rw [hname] at hfirst
    cases hfirst
  | cons b name =>
    rw [hname] at hfirst hmore
    cases hfirst
    injection hmore with hb
    exact hc hb.symm

/-- The escape of a character is an entity for it, or the character itself. -/
theorem decodeEntities_escapeChar (hc : 32 ≤ c) (rest : List UInt8) :
    decodeEntities (escapeChar c ++ rest) = c :: decodeEntities rest := by
  have hentity : ∀ (name : List UInt8) (c' : UInt8), entityAt (name ++ rest) = some (name, c') →
      decodeEntities (name ++ rest) = c' :: decodeEntities rest := by
    intro name c' h
    rw [decodeEntities_some h, List.drop_left]
  unfold escapeChar
  split_ifs with h1 h2 h3 h4 h5 h6
  · rw [h1]; exact hentity _ _ rfl
  · rw [h2]; exact hentity _ _ rfl
  · rw [h3]; exact hentity _ _ rfl
  · rw [h4]; exact hentity _ _ rfl
  · rw [h5]; exact hentity _ _ rfl
  · exact absurd hc (UInt8.not_le.mpr h6.2)
  · exact decodeEntities_none (entityAt_ne h5)

theorem decodeEntities_escaped (hv : Printable v) : decodeEntities (v.flatMap escapeChar) = v := by
  induction v with
  | nil => simp [decodeEntities]
  | cons c v ih =>
    rw [List.flatMap_cons, decodeEntities_escapeChar (hv c (by simp)), ih fun b hb => hv b (by simp [hb])]

theorem printable_zero {s : List UInt8} (h : Printable s) : 0 ∉ s := fun h0 => absurd (h 0 h0) (by decide)

/-- Decoding undoes the escapes. -/
theorem clXmlEntityDecode_decodeStringEscape (hv : Printable v) {coded : List UInt8}
    (h : decodeStringEscape v = some coded) : clXmlEntityDecode coded = v := by
  simp only [decodeStringEscape] at h
  split_ifs at h
  cases h
  rw [clXmlEntityDecode_eq (printable_zero (escaped_printable hv)), decodeEntities_escaped hv]

theorem length_clXmlEntityDecode {s : List UInt8} (hs : 0 ∉ s) : (clXmlEntityDecode s).length ≤ s.length := by
  rw [clXmlEntityDecode_eq hs]
  exact length_decodeEntities s

/-! ## The line -/

/-- The escaped values of a token, as columns. -/
def columnsOf (values : List (List UInt8)) : List (List UInt8) := values.map fun v => v.flatMap escapeChar

theorem printTokenLine_eq {values : List (List UInt8)}
    (hfit : ∀ v ∈ values, (v.flatMap escapeChar).length < CL_MAX_LINE_LENGTH) :
    printTokenLine values = some (List.intercalate [9] (columnsOf values) ++ [10]) := by
  have hcoded : values.mapM decodeStringEscape = some (columnsOf values) := by
    induction values with
    | nil => rfl
    | cons v values ih =>
      have hv : decodeStringEscape v = some (v.flatMap escapeChar) := if_pos (hfit v (by simp))
      rw [List.mapM_cons, hv, ih fun u hu => hfit u (by simp [hu])]
      rfl
  rw [printTokenLine, hcoded]
  rfl

theorem mem_intercalate {sep : UInt8} {cols : List (List UInt8)} {b : UInt8} (h : b ∈ List.intercalate [sep] cols) :
    b = sep ∨ ∃ col ∈ cols, b ∈ col := by
  induction cols with
  | nil => cases h
  | cons col cols ih =>
    cases cols with
    | nil =>
      rw [List.intercalate_singleton] at h
      exact .inr ⟨col, by simp, h⟩
    | cons col' cols =>
      rw [List.intercalate_cons_cons, List.mem_append, List.mem_append, List.mem_singleton] at h
      obtain (h | h) | h := h
      · exact .inr ⟨col, by simp, h⟩
      · exact .inl h
      · obtain h | ⟨col'', hmem, hb⟩ := ih h
        · exact .inl h
        · exact .inr ⟨col'', List.mem_cons_of_mem col hmem, hb⟩

theorem splitOnP_intercalate {p : UInt8 → Bool} {sep : UInt8} (hsep : p sep = true) {cols : List (List UInt8)}
    (hcols : ∀ col ∈ cols, ∀ b ∈ col, p b = false) (hne : cols ≠ []) :
    (List.intercalate [sep] cols).splitOnP p = cols := by
  induction cols with
  | nil => exact absurd rfl hne
  | cons col cols ih =>
    cases cols with
    | nil =>
      rw [List.intercalate_singleton]
      exact List.splitOnP_eq_singleton (hcols col (by simp))
    | cons col' cols =>
      rw [List.intercalate_cons_cons, List.append_assoc, List.singleton_append,
        List.splitOnP_append_cons_of_forall_mem (hcols col (by simp)) sep hsep,
        ih (fun c hc => hcols c (List.mem_cons_of_mem col hc)) (by simp)]

variable {opts : EncodeOptions} {values : List (List UInt8)}

theorem mem_tokenLine (hv : ∀ v ∈ values, Printable v) {b : UInt8} (hb : b ∈ List.intercalate [9] (columnsOf values)) :
    b = 9 ∨ (32 ≤ b ∧ b ≠ 60) := by
  obtain h | ⟨col, hcol, hb⟩ := mem_intercalate hb
  · exact .inl h
  · obtain ⟨v, hmem, rfl⟩ := List.mem_map.mp hcol
    refine .inr ⟨escaped_printable (hv v hmem) b hb, ?_⟩
    rintro rfl
    obtain ⟨c, -, hc⟩ := List.mem_flatMap.mp hb
    exact escapeChar_lt hc

/-- The printed line is a token line. -/
theorem parseLine_tokenLine (declared : List UInt8 → Bool) (hstrip : opts.stripBlanks = false)
    (hskip : opts.skipEmptyLines = false ∨ values ≠ []) (hne : ∀ v ∈ values, v ≠ []) (hv : ∀ v ∈ values, Printable v) :
    parseLine opts declared (List.intercalate [9] (columnsOf values) ++ [10]) =
      .token (List.intercalate [9] (columnsOf values)) := by
  have hmem := @mem_tokenLine values hv
  set str := List.intercalate [9] (columnsOf values) with hstr
  have hchomp : clStringChomp (str ++ [10]) = str := by
    rw [clStringChomp, List.rdropWhile_concat_pos _ _ _ (by decide), List.rdropWhile_eq_self_iff]
    intro hnil hlast
    have hrange := hmem (List.getLast_mem hnil)
    simp only [Bool.or_eq_true, decide_eq_true_eq] at hlast
    obtain h | ⟨h, -⟩ := hrange
    · rw [h] at hlast
      exact absurd hlast (by decide)
    · obtain hl | hl := hlast <;> rw [hl] at h <;> exact absurd h (by decide)
  have hhead : str.head? ≠ some 60 := by
    intro h
    obtain h9 | ⟨-, h60⟩ := hmem (List.mem_of_mem_head? h)
    · exact absurd h9 (by decide)
    · exact h60 rfl
  have hempty : ¬(opts.skipEmptyLines = true ∧ str = []) := by
    rintro ⟨hs, hnil⟩
    obtain h | h := hskip
    · rw [h] at hs
      cases hs
    · obtain ⟨v, rest, rfl⟩ := List.exists_cons_of_ne_nil h
      obtain ⟨c, v', rfl⟩ := List.exists_cons_of_ne_nil (hne v (by simp))
      cases rest with
      | nil =>
        rw [columnsOf, List.map_singleton, List.intercalate_singleton, List.flatMap_cons] at hstr
        rw [hstr] at hnil
        exact escapeChar_ne_nil (List.append_eq_nil_iff.mp hnil).1
      | cons u rest =>
        rw [columnsOf, List.map_cons, List.map_cons, List.intercalate_cons_cons, List.append_assoc,
          List.flatMap_cons, List.append_assoc] at hstr
        rw [hstr] at hnil
        exact escapeChar_ne_nil (List.append_eq_nil_iff.mp hnil).1
  simp only [parseLine, hchomp, hstrip, Bool.false_eq_true, if_false, if_neg hempty, if_neg hhead]
  rw [if_neg fun h => hhead h.2.1]

/-- What the loop over the attributes passes on, when the fields stand for the values. -/
theorem wattrLoop_values (fill : FillRate) (makeSet : MakeSet) (values : List (List UInt8)) {ws : List WAttr}
    (field last : Option (List UInt8))
    (hlen : ws.length = values.length) (hfirst : ∀ v : List UInt8, values[0]? = some v → fieldValue opts field = v)
    (hleft : ∀ (k : ℕ) (v : List UInt8), values[k + 1]? = some v → fieldValue opts (columnsLeft opts.fieldSeparators last)[k]? = v) :
    (wattrLoop opts fill makeSet ws field last).map Prod.fst =
      (ws.zip values).mapM fun p => p.1.addToken fill makeSet p.2 := by
  induction ws generalizing values field last with
  | nil => simp [wattrLoop]
  | cons w ws ih =>
    cases values with
    | nil => cases hlen
    | cons v values =>
      rw [wattrLoop, hfirst v rfl, List.zip_cons_cons, List.mapM_cons]
      rcases hstrtok : encodeStrtok none opts.fieldSeparators last with ⟨field1, last1⟩
      have hnext := encodeStrtok_left opts.fieldSeparators last
      simp only [hstrtok] at hnext
      have hrest := ih values field1 last1 (by simpa using hlen)
        (fun u hu => by rw [fieldValue_congr (hnext 0).1]; exact hleft 0 u hu)
        (fun k u hu => by rw [fieldValue_congr (hnext k).2]; exact hleft (k + 1) u hu)
      cases w.addToken fill makeSet v with
      | none => rfl
      | some w' =>
        simp only [Option.bind_eq_bind, Option.bind_some, ← hrest]
        cases wattrLoop opts fill makeSet ws field1 last1 <;> rfl

/-- A token line as printed, with any number of values: it is not skipped and not taken for a
tag, and each attribute receives its value. Decoding is a left inverse of escaping and never
makes a string longer. -/
theorem printTokenLine_encode (opts : EncodeOptions) (fill : FillRate) (makeSet : MakeSet)
    (declared : List UInt8 → Bool) (values : List (List UInt8)) (hxml : opts.xmlAware = true)
    (hstrip : opts.stripBlanks = false) (hsep : opts.fieldSeparators = [9, 10])
    (hskip : opts.skipEmptyLines = false ∨ values ≠ []) (hne : ∀ v ∈ values, v ≠ []) (hv : ∀ v ∈ values, Printable v)
    (hfit : ∀ v ∈ values, (v.flatMap escapeChar).length < CL_MAX_LINE_LENGTH) :
    (∃ line str, printTokenLine values = some line ∧ parseLine opts declared line = .token str ∧
      ∀ ws last, ws.length = values.length →
        (encodeAddWattrLine opts fill makeSet (ws, last) str).map Prod.fst =
          (ws.zip values).mapM fun p => p.1.addToken fill makeSet p.2) ∧
    (∀ v ∈ values, ∀ coded, decodeStringEscape v = some coded → clXmlEntityDecode coded = v) ∧
    ∀ s, 0 ∉ s → (clXmlEntityDecode s).length ≤ s.length := by
  refine ⟨⟨_, _, printTokenLine_eq hfit, parseLine_tokenLine declared hstrip hskip hne hv, ?_⟩,
    fun v hmem coded h => clXmlEntityDecode_decodeStringEscape (hv v hmem) h, fun s hs => length_clXmlEntityDecode hs⟩
  intro ws last hlen
  -- the columns of the line are the escaped values
  have hcolumn : ∀ (k : ℕ) (v : List UInt8), values[k]? = some v →
      fieldValue opts (columnsLeft opts.fieldSeparators (some (List.intercalate [9] (columnsOf values))))[k]? = v := by
    intro k v hk
    have hmem := List.mem_of_getElem? hk
    have hcols : (List.intercalate [9] (columnsOf values)).splitOnP (· ∈ opts.fieldSeparators) = columnsOf values := by
      apply splitOnP_intercalate
      · rw [hsep]
        decide
      · intro col hcol b hb
        obtain ⟨u, hu, rfl⟩ := List.mem_map.mp hcol
        have hb := escaped_printable (hv u hu) b hb
        rw [hsep, decide_eq_false_iff_not]
        intro hmem
        simp only [List.mem_cons, List.not_mem_nil, or_false] at hmem
        obtain rfl | rfl := hmem <;> exact absurd hb (by decide)
      · intro hnil
        rw [columnsOf, List.map_eq_nil_iff] at hnil
        rw [hnil] at hk
        cases hk
    rw [columnsLeft, hcols, columnsOf, List.getElem?_map, hk, Option.map_some, fieldValue]
    obtain ⟨c, v', rfl⟩ := List.exists_cons_of_ne_nil (hne v hmem)
    obtain ⟨b, col, hcol⟩ := List.exists_cons_of_ne_nil
      (List.append_ne_nil_of_left_ne_nil (escapeChar_ne_nil (c := c)) (v'.flatMap escapeChar))
    rw [List.flatMap_cons, hcol]
    simp only [hstrip, hxml, if_true, Bool.false_eq_true, if_false]
    rw [← hcol, ← List.flatMap_cons, clXmlEntityDecode_eq (printable_zero (escaped_printable (hv _ hmem))),
      decodeEntities_escaped (hv _ hmem)]
  have hcall : encodeStrtok (some (List.intercalate [9] (columnsOf values))) opts.fieldSeparators last =
      encodeStrtok none opts.fieldSeparators (some (List.intercalate [9] (columnsOf values))) := rfl
  have hnext := encodeStrtok_left opts.fieldSeparators (some (List.intercalate [9] (columnsOf values)))
  rw [encodeAddWattrLine, hcall]
  rcases hstrtok : encodeStrtok none opts.fieldSeparators (some (List.intercalate [9] (columnsOf values))) with ⟨field, last1⟩
  simp only [hstrtok] at hnext
  apply wattrLoop_values fill makeSet values _ _ hlen
  · intro v hv0
    rw [fieldValue_congr (hnext 0).1]
    exact hcolumn 0 v hv0
  · intro k v hk
    rw [fieldValue_congr (hnext k).2]
    exact hcolumn (k + 1) v hk

/-- Values `<a`, `&lt;` and a quote: text that looks like a tag and like an entity. -/
theorem printTokenLine_encode_three :
    ∃ line str, printTokenLine [[60, 97], [38, 108, 116, 59], [34]] = some line ∧
      parseLine { xmlAware := true } (fun _ => true) line = .token str ∧
      (encodeAddWattrLine { xmlAware := true } ⟨fun _ _ => false, fun _ _ => false, id⟩ some
        ([{ lh := clNewLexhash 1 }, { lh := clNewLexhash 1 }, { lh := clNewLexhash 1 }], none) str).map Prod.fst =
          [(({ lh := clNewLexhash 1 } : WAttr), [60, 97]), ({ lh := clNewLexhash 1 }, [38, 108, 116, 59]),
            ({ lh := clNewLexhash 1 }, [34])].mapM fun p =>
            p.1.addToken ⟨fun _ _ => false, fun _ _ => false, id⟩ some p.2 := by
  obtain ⟨⟨line, str, hprint, hparse, henc⟩, -⟩ := printTokenLine_encode { xmlAware := true }
    ⟨fun _ _ => false, fun _ _ => false, id⟩ some (fun _ => true) [[60, 97], [38, 108, 116, 59], [34]]
    rfl rfl rfl (.inl rfl) (by decide +kernel) (by decide +kernel) (by decide +kernel)
  exact ⟨line, str, hprint, hparse, henc _ none rfl⟩

end CWB
