import CWB.Spec.EncodeLine

/-! What the in-place loops of a line compute: decoding with two pointers into one buffer is
decoding from one string into another, and successive calls of `encode_strtok` return the
columns of the line. -/

namespace CWB

open List

/-! ## Entities -/

variable {s : List UInt8}

theorem entityAt_some {name : List UInt8} {c : UInt8} (h : entityAt s = some (name, c)) :
    name <+: s ∧ 0 < name.length ∧ 0 ∉ name ∧ c ≠ 0 := by
  obtain ⟨hp, hmem⟩ := (⟨find?_some h, mem_of_find?_eq_some h⟩ : _ ∧ _)
  refine ⟨List.isPrefixOf_iff_prefix.mp hp, ?_⟩
  simp only [entities, mem_cons, Prod.mk.injEq, not_mem_nil, or_false] at hmem
  obtain ⟨rfl, rfl⟩ | ⟨rfl, rfl⟩ | ⟨rfl, rfl⟩ | ⟨rfl, rfl⟩ | ⟨rfl, rfl⟩ := hmem <;> decide

/-- Decoding from the left, into a new string. -/
def decodeEntities : List UInt8 → List UInt8
  | [] => []
  | c :: s =>
    match entityAt (c :: s) with
    | some (name, c') => c' :: decodeEntities (s.drop (name.length - 1))
    | none => c :: decodeEntities s
termination_by s => s.length
decreasing_by
  · simp only [length_drop, length_cons]; omega
  · simp

theorem decodeEntities_some {name : List UInt8} {c : UInt8} (h : entityAt s = some (name, c)) :
    decodeEntities s = c :: decodeEntities (s.drop name.length) := by
  obtain ⟨⟨more, hmore⟩, hpos, -⟩ := entityAt_some h
  cases s with
  | nil =>
    have hlen := congrArg List.length hmore
    simp only [length_append, length_nil] at hlen
    omega
  | cons b s =>
    rw [decodeEntities, h]
    obtain ⟨n, hn⟩ : ∃ n, name.length = n + 1 := ⟨name.length - 1, by omega⟩
    simp only [hn, drop_succ_cons, Nat.add_sub_cancel]

theorem decodeEntities_none {c : UInt8} (h : entityAt (c :: s) = none) :
    decodeEntities (c :: s) = c :: decodeEntities s := by
  rw [decodeEntities, h]

theorem length_decodeEntities (s : List UInt8) : (decodeEntities s).length ≤ s.length := by
  induction s using decodeEntities.induct with
  | case1 => simp [decodeEntities]
  | case2 c s name c' h ih =>
    rw [decodeEntities, h]
    simp only [length_cons, length_drop] at ih ⊢
    omega
  | case3 c s h ih =>
    rw [decodeEntities_none h, length_cons, length_cons]
    omega

theorem zero_notMem_decodeEntities (hs : 0 ∉ s) : 0 ∉ decodeEntities s := by
  induction s using decodeEntities.induct with
  | case1 => simp [decodeEntities]
  | case2 c s name c' h ih =>
    obtain ⟨-, -, -, hc'⟩ := entityAt_some h
    rw [decodeEntities, h, mem_cons, not_or]
    refine ⟨Ne.symm hc', ih fun hmem => hs ?_⟩
    exact mem_cons_of_mem c (mem_of_mem_drop hmem)
  | case3 c s h ih =>
    rw [decodeEntities_none h, mem_cons, not_or]
    obtain ⟨hc, hs⟩ := not_or.mp (mt mem_cons.mpr hs)
    exact ⟨hc, ih hs⟩

/-- An entity does not reach over the terminator. -/
theorem entityAt_terminated (s rest : List UInt8) : entityAt (s ++ 0 :: rest) = entityAt s := by
  have hname : ∀ e ∈ entities, (e.1.isPrefixOf (s ++ 0 :: rest) = true ↔ e.1.isPrefixOf s = true) := by
    intro e he
    have h0 : 0 ∉ e.1 := by
      simp only [entities, mem_cons, not_mem_nil, or_false] at he
      obtain rfl | rfl | rfl | rfl | rfl := he <;> decide
    rw [List.isPrefixOf_iff_prefix, List.isPrefixOf_iff_prefix]
    constructor
    · intro hp
      obtain hle | hlt := le_or_gt e.1.length s.length
      · exact prefix_of_prefix_length_le hp (prefix_append s _) hle
      · exfalso
        have hmem : (s ++ [0]) <+: e.1 := by
          have hstring : (s ++ [0]) <+: s ++ 0 :: rest := ⟨rest, by simp⟩
          refine prefix_of_prefix_length_le hstring hp ?_
          rw [length_append, length_singleton]
          omega
        exact h0 (hmem.subset (by simp))
    · intro hp
      exact hp.trans (prefix_append s _)
  unfold entityAt
  apply find?_congr
  intro e he
  exact Bool.eq_iff_iff.mpr (hname e he)

@[simp] theorem length_entityDecodeLoop (fuel : ℕ) (buf : List UInt8) (read write : ℕ) :
    (entityDecodeLoop fuel buf read write).1.length = buf.length := by
  induction fuel generalizing buf read write with
  | zero => rfl
  | succ fuel ih =>
    rw [entityDecodeLoop]
    split_ifs
    · rfl
    · split
      · rw [ih, length_set]
      · rw [ih, length_set]

theorem set_write {out gap rest : List UInt8} {b c : UInt8} :
    (out ++ (b :: gap ++ rest)).set out.length c = (out ++ [c]) ++ (gap ++ rest) := by
  rw [set_append_right _ _ le_rfl, Nat.sub_self]
  simp

/-- The loop with `out` written and `gap` left between the two pointers. -/
theorem entityDecodeLoop_spec {fuel : ℕ} (out gap : List UInt8) (tail : List UInt8) (hs : 0 ∉ s)
    (hfuel : s.length < fuel) :
    ∃ gap', entityDecodeLoop fuel (out ++ (gap ++ (s ++ 0 :: tail))) (out.length + gap.length) out.length =
      (out ++ (decodeEntities s ++ (gap' ++ 0 :: tail)),
        out.length + (decodeEntities s).length + gap'.length, out.length + (decodeEntities s).length) := by
  induction fuel generalizing out gap s with
  | zero => omega
  | succ fuel ih =>
    have hread : (out ++ (gap ++ (s ++ 0 :: tail))).drop (out.length + gap.length) = s ++ 0 :: tail := by
      rw [← append_assoc, ← length_append, drop_left]
    have hgetD : (out ++ (gap ++ (s ++ 0 :: tail))).getD (out.length + gap.length) 0 = (s ++ 0 :: tail).getD 0 0 := by
      have hfirst := congrArg (fun l => l.getD 0 0) hread
      simpa only [getD_eq_getElem?_getD, getElem?_drop, Nat.add_zero] using hfirst
    rw [entityDecodeLoop, hgetD, hread]
    cases s with
    | nil => exact ⟨gap, by simp [decodeEntities]⟩
    | cons c s =>
      obtain ⟨hc, hs'⟩ := not_or.mp (mt mem_cons.mpr hs)
      have hcur : ((c :: s) ++ 0 :: tail).getD 0 0 = c := rfl
      simp only [hcur, if_neg (Ne.symm hc), entityAt_terminated]
      -- `n` bytes are read, and one of them or of the gap before them is overwritten
      have hstep : ∀ (c' : UInt8) (name : List UInt8) (rest : List UInt8), c :: s = name ++ rest → name ≠ [] →
          decodeEntities (c :: s) = c' :: decodeEntities rest →
          ∃ gap', entityDecodeLoop fuel ((out ++ (gap ++ ((c :: s) ++ 0 :: tail))).set out.length c')
              (out.length + gap.length + name.length) (out.length + 1) =
            (out ++ (decodeEntities (c :: s) ++ (gap' ++ 0 :: tail)),
              out.length + (decodeEntities (c :: s)).length + gap'.length,
              out.length + (decodeEntities (c :: s)).length) := by
        intro c' name rest hsplit hname hdec
        obtain ⟨b, gap1, hgap⟩ := exists_cons_of_ne_nil
          (append_ne_nil_of_right_ne_nil gap hname)
        have hlen := congrArg List.length hgap
        simp only [length_append, length_cons] at hlen
        have hrest : 0 ∉ rest := fun h => hs (by rw [hsplit]; exact mem_append_right _ h)
        have hshort := congrArg List.length hsplit
        simp only [length_append, length_cons] at hshort hfuel
        have hname' := length_pos_iff.mpr hname
        obtain ⟨gap', hih⟩ := ih (out ++ [c']) gap1 hrest (by omega)
        refine ⟨gap', ?_⟩
        rw [hsplit, append_assoc name, ← append_assoc gap name, hgap, set_write, ← hsplit, hdec]
        have hr : out.length + gap.length + name.length = (out ++ [c']).length + gap1.length := by
          rw [length_append, length_singleton]
          omega
        have hw : out.length + 1 = (out ++ [c']).length := by simp
        rw [hr, hw, hih]
        refine Prod.ext (by simp) (Prod.ext ?_ ?_) <;>
        · simp only [length_append, length_cons, length_nil]
          omega
      cases hent : entityAt (c :: s) with
      | none => exact hstep c [c] s rfl (by simp) (decodeEntities_none hent)
      | some e =>
        obtain ⟨name, c'⟩ := e
        obtain ⟨⟨rest, hsplit⟩, hpos, -⟩ := entityAt_some hent
        refine hstep c' name rest hsplit.symm (length_pos_iff.mp hpos) ?_
        rw [decodeEntities_some hent, ← hsplit, drop_left]

theorem cString_append {rest : List UInt8} (hs : 0 ∉ s) : cString (s ++ 0 :: rest) = s := by
  rw [cString, takeWhile_append_of_pos]
  · simp
  · intro c hc
    simp only [ne_eq, decide_eq_true_eq]
    rintro rfl
    exact hs hc

/-- Decoding in place. -/
theorem clXmlEntityDecode_eq (hs : 0 ∉ s) : clXmlEntityDecode s = decodeEntities s := by
  obtain ⟨gap, hloop⟩ := entityDecodeLoop_spec [] [] [] hs (Nat.lt_succ_self s.length)
  simp only [nil_append, length_nil, Nat.zero_add] at hloop
  rw [clXmlEntityDecode, hloop]
  obtain ⟨b, rest, hrest⟩ := exists_cons_of_ne_nil (append_ne_nil_of_right_ne_nil gap (cons_ne_nil (0 : UInt8) []))
  simp only [hrest]
  rw [set_append_right _ _ le_rfl, Nat.sub_self, set_cons_zero]
  exact cString_append (zero_notMem_decodeEntities hs)

/-! ## Columns -/

theorem strtokScan_eq (delim s : List UInt8) :
    s.splitOnP (· ∈ delim) = match strtokScan delim s with
      | (tok, none) => [tok]
      | (tok, some rest) => tok :: rest.splitOnP (· ∈ delim) := by
  induction s with
  | nil => rfl
  | cons c s ih =>
    rw [splitOnP_cons_eq_if_modifyHead, strtokScan]
    by_cases hc : c ∈ delim
    · simp [hc]
    · rw [if_neg (by simpa using hc), if_neg hc, ih]
      rcases strtokScan delim s with ⟨tok, last⟩
      cases last <;> rfl

/-- The fields that are left when `last` is what it is; an empty field is like a missing one. -/
def columnsLeft (delim : List UInt8) (last : Option (List UInt8)) : List (List UInt8) :=
  match last with
  | none => []
  | some s => s.splitOnP (· ∈ delim)

theorem encodeStrtok_left (delim : List UInt8) (last : Option (List UInt8)) (k : ℕ) :
    let (field, last') := encodeStrtok none delim last
    field.filter (· ≠ []) = (columnsLeft delim last)[0]?.filter (· ≠ []) ∧
      (columnsLeft delim last')[k]?.filter (· ≠ []) = (columnsLeft delim last)[k + 1]?.filter (· ≠ []) := by
  cases last with
  | none => simp [encodeStrtok, columnsLeft]
  | some s =>
    cases s with
    | nil => simp [encodeStrtok, columnsLeft, Option.filter]
    | cons c s =>
      have hsplit := strtokScan_eq delim (c :: s)
      simp only [encodeStrtok, Option.none_or, columnsLeft, hsplit]
      rcases strtokScan delim (c :: s) with ⟨tok, last'⟩
      cases last' <;> simp

variable {opts : EncodeOptions}

theorem fieldValue_filter (field : Option (List UInt8)) :
    fieldValue opts (field.filter (· ≠ [])) = fieldValue opts field := by
  obtain _ | s := field
  · rfl
  · cases s with
    | nil => simp [fieldValue, Option.filter]
    | cons c s => rfl

theorem fieldValue_congr {field field' : Option (List UInt8)} (h : field.filter (· ≠ []) = field'.filter (· ≠ [])) :
    fieldValue opts field = fieldValue opts field' := by
  rw [← fieldValue_filter field, h, fieldValue_filter]

end CWB
