import CWB.Spec.RangeFile
import CWB.Sanity.Interned

/-! Region annotations that are written and read again. The files hold the different
annotations in the order of first occurrence; the index has one element for each region, with
the offset of its annotation. -/

namespace CWB

open List StringTable

/-- The place in `.avs` where an annotation begins. -/
def offsetOf (annots : List (List UInt8)) (a : List UInt8) : ℕ :=
  (offsets (firstOccurrences annots)).getD ((firstOccurrences annots).idxOf a) 0

/-- Hash, files and counter after the annotations `annots` of regions 0, 1, 2, .. -/
structure AnnotFiles.Holds (f : AnnotFiles) (annots : List (List UInt8)) : Prop where
  interned : Interned f.lh (firstOccurrences annots)
  data_eq : f.data = offsets (firstOccurrences annots)
  offset_eq : f.offset = (bytes (firstOccurrences annots)).length
  avs_eq : f.avs = bytes (firstOccurrences annots)
  avx_eq : f.avx = annots.zipIdx.map fun p => (p.2, offsetOf annots p.1)

variable {fill : FillRate} {f : AnnotFiles} {annots : List (List UInt8)} {a : List UInt8}

theorem AnnotFiles.holds_new (buckets : ℤ) : AnnotFiles.Holds { lh := clNewLexhash buckets } [] where
  interned := interned_new buckets
  data_eq := rfl
  offset_eq := rfl
  avs_eq := rfl
  avx_eq := rfl

/-- An annotation keeps its offset. -/
theorem offsetOf_snoc (ha : a ∈ annots) (b : List UInt8) : offsetOf (annots ++ [b]) a = offsetOf annots a := by
  have hmem := mem_firstOccurrences.mpr ha
  unfold offsetOf
  rw [firstOccurrences_snoc]
  split_ifs
  · rfl
  · rw [offsets_snoc, idxOf_append_of_mem hmem, getD_append]
    rw [length_offsets]
    exact idxOf_lt_length_of_mem hmem

theorem avx_snoc (annots : List (List UInt8)) (a : List UInt8) :
    ((annots ++ [a]).zipIdx.map fun p => (p.2, offsetOf (annots ++ [a]) p.1)) =
      (annots.zipIdx.map fun p => (p.2, offsetOf annots p.1)) ++ [(annots.length, offsetOf (annots ++ [a]) a)] := by
  rw [zipIdx_append, map_append]
  congr 1
  · refine map_congr_left fun p hp => ?_
    rw [offsetOf_snoc (fst_mem_of_mem_zipIdx hp)]
  · simp

theorem offsetOf_new (ha : a ∉ firstOccurrences annots) :
    offsetOf (annots ++ [a]) a = (bytes (firstOccurrences annots)).length := by
  rw [offsetOf, firstOccurrences_snoc, if_neg ha, offsets_snoc, idxOf_append_of_notMem ha, idxOf_cons_self,
    Nat.add_zero, getD_append_right _ _ _ _ (by rw [length_offsets]), length_offsets, Nat.sub_self]
  rfl

theorem store_holds (fill : FillRate) (h : f.Holds annots) (hsize : (bytes (firstOccurrences (annots ++ [a]))).length < 2 ^ 31) :
    ∃ f', f.store fill annots.length a = some f' ∧ f'.Holds (annots ++ [a]) := by
  unfold AnnotFiles.store
  by_cases ha : a ∈ firstOccurrences annots
  · have hfo : firstOccurrences (annots ++ [a]) = firstOccurrences annots := by rw [firstOccurrences_snoc, if_pos ha]
    obtain ⟨freq, hfind⟩ := (interned_find h.interned a).2 ha
    rw [hfind]
    refine ⟨_, rfl, by rw [hfo]; exact h.interned, by rw [hfo]; exact h.data_eq, by rw [hfo]; exact h.offset_eq,
      by rw [hfo]; exact h.avs_eq, ?_⟩
    rw [avx_snoc, h.avx_eq, h.data_eq, offsetOf_snoc (mem_firstOccurrences.mp ha)]
    rfl
  · have hfo : firstOccurrences (annots ++ [a]) = firstOccurrences annots ++ [a] := by rw [firstOccurrences_snoc, if_neg ha]
    have hbytes : (bytes (firstOccurrences (annots ++ [a]))).length = f.offset + a.length + 1 := by
      rw [hfo, bytes_snoc, h.offset_eq]
      simp only [length_append, length_singleton]
      omega
    obtain ⟨lh, hadd, hint⟩ := interned_add_new fill h.interned ha
    rw [(interned_find h.interned a).1 ha]
    simp only [hadd, Option.bind_eq_bind, Option.bind_some]
    rw [if_neg (by omega)]
    refine ⟨_, rfl, by rw [hfo]; exact hint, ?_, hbytes.symm, ?_, ?_⟩
    · rw [hfo, offsets_snoc, h.data_eq, h.offset_eq]
    · rw [hfo, bytes_snoc, h.avs_eq]
      rfl
    · rw [avx_snoc, h.avx_eq, offsetOf_new ha, h.offset_eq]

/-! ## Reading -/

theorem pairInts_getElem? {α : Type} {l : List (α × α)} {k : ℕ} {p : α × α} (h : l[k]? = some p) :
    (pairInts l)[2 * k]? = some p.1 ∧ (pairInts l)[2 * k + 1]? = some p.2 := by
  induction l generalizing k with
  | nil => cases h
  | cons q l ih =>
    have hcons : pairInts (q :: l) = q.1 :: q.2 :: pairInts l := rfl
    cases k with
    | zero =>
      cases h
      exact ⟨rfl, rfl⟩
    | succ k =>
      rw [hcons]
      exact ih h

@[simp] theorem length_pairInts {α : Type} (l : List (α × α)) : (pairInts l).length = 2 * l.length := by
  induction l with
  | nil => rfl
  | cons q l ih =>
    have hcons : pairInts (q :: l) = q.1 :: q.2 :: pairInts l := rfl
    rw [hcons, length_cons, length_cons, ih, length_cons]
    omega

theorem componentSize_pairInts {rng : List (ℤ × ℤ)} (hsize : rng.length < 2 ^ 30) :
    componentSize (pairInts rng).length = 2 * rng.length := by
  rw [componentSize, length_pairInts, Block.toInt_count (by omega)]
  omega

theorem clStruc2cpos_eq {rng : List (ℤ × ℤ)} {k : ℕ} {p : ℤ × ℤ} (hsize : rng.length < 2 ^ 30) (h : rng[k]? = some p) :
    clStruc2cpos rng k = some p := by
  obtain ⟨hk, -⟩ := List.getElem?_eq_some_iff.mp h
  obtain ⟨h1, h2⟩ := pairInts_getElem? h
  have hnot : ¬((k : ℤ) < 0 ∨ componentSize (pairInts rng).length / 2 ≤ k) := by
    rw [componentSize_pairInts hsize]
    omega
  have e1 : ((k : ℤ) * 2).toNat = 2 * k := by omega
  have e2 : ((k : ℤ) * 2 + 1).toNat = 2 * k + 1 := by omega
  simp only [clStruc2cpos, if_neg hnot, e1, e2, h1, h2, Option.bind_eq_bind, Option.bind_some, Option.pure_def]

/-- There is no region behind the last one. -/
theorem clStruc2cpos_length {rng : List (ℤ × ℤ)} (hsize : rng.length < 2 ^ 30) : clStruc2cpos rng rng.length = none := by
  have hbehind : (rng.length : ℤ) < 0 ∨ componentSize (pairInts rng).length / 2 ≤ rng.length := by
    rw [componentSize_pairInts hsize]
    omega
  simp only [clStruc2cpos, if_pos hbehind]

/-- With 2^30 regions or more the component size is cut off, and the last region is not found. -/
theorem clStruc2cpos_last (rng : List (ℤ × ℤ)) (hsize : 2 ^ 30 ≤ rng.length) :
    clStruc2cpos rng ((rng.length - 1 : ℕ) : ℤ) = none := by
  have hcount : componentSize (pairInts rng).length < 2 * rng.length := by
    have h := Block.toInt_count_lt (show 2 ^ 31 ≤ (pairInts rng).length by rw [length_pairInts]; omega)
    rw [length_pairInts] at h
    rw [componentSize, length_pairInts]
    omega
  have hor : ((rng.length - 1 : ℕ) : ℤ) < 0 ∨ componentSize (pairInts rng).length / 2 ≤ ((rng.length - 1 : ℕ) : ℤ) := by
    omega
  simp only [clStruc2cpos, if_pos hor]

theorem sVComp_eq {key id : ℕ} (hkey : key < 2 ^ 31) (hid : id < 2 ^ 31) : sVComp key id = key - id := by
  have h1 := Block.toInt_count hkey
  have h2 := Block.toInt_count hid
  rw [sVComp, BitVec.toInt_sub, h1, h2, Int.bmod_eq_of_le] <;> omega

theorem clStruc2str_eq (h : f.Holds annots) (h0 : ∀ s ∈ annots, 0 ∉ s) (hcount : annots.length < 2 ^ 30)
    (hsize : (bytes (firstOccurrences annots)).length < 2 ^ 31) {k : ℕ} (hk : annots[k]? = some a) :
    clStruc2str f k = some a := by
  obtain ⟨hlt, -⟩ := List.getElem?_eq_some_iff.mp hk
  have hlen : f.avx.length = annots.length := by rw [h.avx_eq, length_map, length_zipIdx]
  have hentry : ∀ i y, f.avx[i]? = some y → y.1 = i ∧ i < annots.length := by
    intro i y hy
    rw [h.avx_eq, getElem?_map, getElem?_zipIdx] at hy
    obtain ⟨p, hp, rfl⟩ := Option.map_eq_some_iff.mp hy
    obtain ⟨b, hb, rfl⟩ := Option.map_eq_some_iff.mp hp
    obtain ⟨hi, -⟩ := List.getElem?_eq_some_iff.mp hb
    exact ⟨by simp, hi⟩
  have hsizeInt : componentSize (pairInts f.avx).length / 2 = annots.length := by
    rw [componentSize, length_pairInts, hlen, Block.toInt_count (by omega)]
    omega
  have hmem := mem_of_getElem? hk
  have hidx : f.avx[k]? = some (k, offsetOf annots a) := by
    rw [h.avx_eq, getElem?_map, getElem?_zipIdx, hk]
    simp
  have hfind : BinarySearch.find (fun e : ℕ × ℕ => sVComp k e.1) f.avx annots.length = some (k, offsetOf annots a) := by
    apply BinarySearch.findLoop_of_window hidx
    · rw [sVComp_eq (by omega) (by omega)]
      omega
    · intro i y hi hy
      obtain ⟨he, hi'⟩ := hentry i y hy
      rw [he, sVComp_eq (by omega) (by omega)]
      omega
    · intro i y hi hy
      obtain ⟨he, hi'⟩ := hentry i y hy
      rw [he, sVComp_eq (by omega) (by omega)]
      omega
    · exact Nat.zero_le k
    · exact hlt
    · exact hlen.ge
    · exact le_rfl
  have hfo : ∀ s ∈ firstOccurrences annots, 0 ∉ s := fun s hs => h0 s (mem_firstOccurrences.mp hs)
  have hplace := idxOf_lt_length_of_mem (mem_firstOccurrences.mpr hmem)
  obtain ⟨off, hoff, hread⟩ := readString_offsets hfo hplace
  have hoffset : offsetOf annots a = off := by
    rw [offsetOf, getD_eq_getElem?_getD, hoff]
    rfl
  -- the string with its terminator lies inside the file
  have hin := (Block.readString_extend hread []).2
  have hoffInt : (BitVec.ofNat 32 off).toInt = off := Block.toInt_count (by omega)
  have hneg : ¬(annots.length : ℤ) < 0 := by omega
  simp only [clStruc2str, hsizeInt, if_neg hneg, Int.toNat_natCast, hfind, Option.bind_eq_bind, Option.bind_some,
    hoffset, hoffInt, h.avs_eq]
  rw [if_pos ⟨by omega, by omega⟩, hread, getElem_idxOf]

/-! ## The two writers -/

/-- A region with its annotation. -/
abbrev Region := (ℤ × ℤ) × List UInt8

/-- The regions of an attribute, each opened and closed by `cwb-encode`. -/
def closeRegions (fill : FillRate) (regions : List Region) : Option RangeFile :=
  regions.foldlM (fun r region => { r with
      isOpen := true, startPos := region.1.1, annot := some region.2 : RangeFile }.rangeClose fill region.1.2)
    { storeValues := true, values := { lh := clNewLexhash 10000 } }

/-- The regions of an attribute, written by `cwb-s-encode`. -/
def sencodeRegions (fill : FillRate) (regions : List Region) : Option SencodeAttr :=
  regions.foldlM (fun s region => sencodeWriteRegion fill s region.1.1 region.1.2 region.2) { storeValues := true }

/-- The regions that `range_close` does not drop. -/
def nonEmpty (regions : List Region) : List Region := regions.filter fun region => region.1.1 ≤ region.1.2

theorem closeRegions_holds (fill : FillRate) (regions : List Region)
    (hlen : ∀ region ∈ regions, region.2.length < CL_MAX_LINE_LENGTH)
    (hsize : (bytes (firstOccurrences ((nonEmpty regions).map Prod.snd))).length < 2 ^ 31) :
    ∃ r, closeRegions fill regions = some r ∧ r.storeValues = true ∧ r.num = (nonEmpty regions).length ∧
      r.rng = (nonEmpty regions).map Prod.fst ∧ r.values.Holds ((nonEmpty regions).map Prod.snd) := by
  induction regions using reverseRecOn with
  | nil => exact ⟨_, rfl, rfl, rfl, rfl, AnnotFiles.holds_new 10000⟩
  | append_singleton regions region ih =>
    have hsnoc : nonEmpty (regions ++ [region]) =
        nonEmpty regions ++ if region.1.1 ≤ region.1.2 then [region] else [] := by
      rw [nonEmpty, filter_append]
      congr 1
      simp [filter_singleton]
    obtain ⟨r, hrun, hstore, hnum, hrng, hvalues⟩ := ih (fun x hx => hlen x (by simp [hx])) (by
      refine lt_of_le_of_lt (length_bytes_le ?_) hsize
      rw [hsnoc, map_append]
      exact isPrefix_firstOccurrences _ _)
    have htrunc : truncateValue region.2 = region.2 := if_neg (not_le.mpr (hlen region (by simp)))
    rw [closeRegions] at hrun ⊢
    rw [foldlM_append, hrun]
    simp only [Option.bind_eq_bind, Option.bind_some, foldlM_cons, foldlM_nil, RangeFile.rangeClose, if_true,
      RangeFile.closeThis, hstore, Option.getD_some, htrunc]
    by_cases hle : region.1.1 ≤ region.1.2
    · rw [hsnoc, if_pos hle, map_append, map_singleton] at hsize
      obtain ⟨values, hvals, hholds⟩ := store_holds fill hvalues hsize
      rw [length_map, ← hnum] at hvals
      simp only [if_pos hle, hsnoc, hvals, Option.bind_some, Option.pure_def, Option.some.injEq, exists_eq_left',
        map_append, map_singleton, length_append, length_singleton]
      exact ⟨trivial, by rw [hnum], by rw [hrng], hholds⟩
    · simp only [if_neg hle, hsnoc, append_nil, Option.bind_some, Option.pure_def, Option.some.injEq, exists_eq_left']
      exact ⟨trivial, hnum, hrng, hvalues⟩

theorem sencodeRegions_holds (fill : FillRate) (regions : List Region)
    (hsize : (bytes (firstOccurrences (regions.map Prod.snd))).length < 2 ^ 31) :
    ∃ s, sencodeRegions fill regions = some s ∧ s.storeValues = true ∧ s.num = regions.length ∧
      s.rng = regions.map Prod.fst ∧ s.values.Holds (regions.map Prod.snd) := by
  induction regions using reverseRecOn with
  | nil => exact ⟨_, rfl, rfl, rfl, rfl, AnnotFiles.holds_new 0⟩
  | append_singleton regions region ih =>
    obtain ⟨s, hrun, hstore, hnum, hrng, hvalues⟩ := ih (by
      refine lt_of_le_of_lt (length_bytes_le ?_) hsize
      rw [map_append]
      exact isPrefix_firstOccurrences _ _)
    rw [map_append, map_singleton] at hsize
    obtain ⟨values, hvals, hholds⟩ := store_holds fill hvalues hsize
    rw [length_map, ← hnum] at hvals
    rw [sencodeRegions] at hrun ⊢
    rw [foldlM_append, hrun]
    refine ⟨{ s with values := values, rng := s.rng ++ [(region.1.1, region.1.2)], num := s.num + 1
                     lastCpos := region.1.2 }, ?_, hstore, by simp [hnum], by simp [hrng], by simpa using hholds⟩
    simp [sencodeWriteRegion, hstore, hvals]

/-- Region `k` and its annotation are what the access functions return for `k`. -/
def Readable (rng : List (ℤ × ℤ)) (values : AnnotFiles) (regions : List Region) : Prop :=
  ∀ (k : ℕ) (region : Region), regions[k]? = some region →
    clStruc2cpos rng k = some region.1 ∧ clStruc2str values k = some region.2

/-- The index is numbered without gaps, and equal annotations share their offset. -/
def Numbered (values : AnnotFiles) (regions : List Region) : Prop :=
  values.avx.map Prod.fst = range regions.length ∧
    ∀ (i j : ℕ) (region region' : Region), regions[i]? = some region → regions[j]? = some region' →
      region.2 = region'.2 → (values.avx.map Prod.snd)[i]? = (values.avx.map Prod.snd)[j]?

variable {regions : List Region} {rng : List (ℤ × ℤ)}

theorem numbered_of_holds (h : f.Holds (regions.map Prod.snd)) : Numbered f regions := by
  have hoffsets : f.avx.map Prod.snd = regions.map fun region => offsetOf (regions.map Prod.snd) region.2 := by
    rw [h.avx_eq, map_map]
    apply ext_getElem
    · simp
    · intro i h1 h2
      simp
  constructor
  · rw [h.avx_eq, map_map]
    apply ext_getElem
    · simp
    · intro i h1 h2
      simp
  · intro i j region region' hi hj heq
    rw [hoffsets, getElem?_map, getElem?_map, hi, hj, Option.map_some, Option.map_some, heq]

theorem readable_iff (h : f.Holds (regions.map Prod.snd)) (h0 : ∀ region ∈ regions, 0 ∉ region.2)
    (hsize : (bytes (firstOccurrences (regions.map Prod.snd))).length < 2 ^ 31) :
    Readable (regions.map Prod.fst) f regions ↔ regions.length < 2 ^ 30 := by
  constructor
  · intro hread
    by_contra hge
    have hlast : regions[regions.length - 1]? = some (regions.get ⟨regions.length - 1, by omega⟩) :=
      getElem?_eq_getElem (by omega)
    have hnone := clStruc2cpos_last (regions.map Prod.fst) (by rw [length_map]; omega)
    rw [length_map, (hread _ _ hlast).1] at hnone
    cases hnone
  · intro hlt k region hk
    constructor
    · apply clStruc2cpos_eq
      · rw [length_map]
        exact hlt
      · rw [getElem?_map, hk]
        rfl
    · apply clStruc2str_eq h
      · intro s hs
        obtain ⟨x, hx, rfl⟩ := mem_map.mp hs
        exact h0 x hx
      · rw [length_map]
        exact hlt
      · exact hsize
      · rw [getElem?_map, hk]
        rfl

/-- Both writers number the annotations without gaps and store each string once. What they
have written is read back, region by region, exactly when the number of regions stays below
2^30, so that an `int` can hold the number of integers in a file. -/
theorem regionFiles_readable_iff (fill : FillRate) (regions : List Region) (h0 : ∀ region ∈ regions, 0 ∉ region.2)
    (hlen : ∀ region ∈ regions, region.2.length < CL_MAX_LINE_LENGTH) :
    ((bytes (firstOccurrences ((nonEmpty regions).map Prod.snd))).length < 2 ^ 31 →
      ∃ r, closeRegions fill regions = some r ∧ Numbered r.values (nonEmpty regions) ∧
        (Readable r.rng r.values (nonEmpty regions) ↔ (nonEmpty regions).length < 2 ^ 30)) ∧
    ((bytes (firstOccurrences (regions.map Prod.snd))).length < 2 ^ 31 →
      ∃ s, sencodeRegions fill regions = some s ∧ Numbered s.values regions ∧
        (Readable s.rng s.values regions ↔ regions.length < 2 ^ 30)) := by
  constructor
  · intro hsize
    obtain ⟨r, hrun, -, -, hrng, hvalues⟩ := closeRegions_holds fill regions hlen hsize
    refine ⟨r, hrun, numbered_of_holds hvalues, ?_⟩
    rw [hrng]
    exact readable_iff hvalues (fun x hx => h0 x (mem_of_mem_filter hx)) hsize
  · intro hsize
    obtain ⟨s, hrun, -, -, hrng, hvalues⟩ := sencodeRegions_holds fill regions hsize
    refine ⟨s, hrun, numbered_of_holds hvalues, ?_⟩
    rw [hrng]
    exact readable_iff hvalues h0 hsize

def exampleFill : FillRate := ⟨fun _ _ => false, fun _ _ => false, id⟩

/-- Three regions and an empty one; two share their annotation. -/
theorem regionFiles_readable_four :
    ∃ r, closeRegions exampleFill [((0, 2), [97]), ((3, 2), [98]), ((3, 4), []), ((6, 9), [97])] = some r ∧
      Readable r.rng r.values [((0, 2), [97]), ((3, 4), []), ((6, 9), [97])] := by
  obtain ⟨r, hrun, -, hiff⟩ := (regionFiles_readable_iff exampleFill
    [((0, 2), [97]), ((3, 2), [98]), ((3, 4), []), ((6, 9), [97])] (by decide) (by decide)).1 (by decide)
  exact ⟨r, hrun, hiff.mpr (by decide)⟩

/-- One region for each of `n` tokens, all with the same annotation. -/
def tokenRegions (n : ℕ) : List Region := (range n).map fun i : ℕ => (((i : ℤ), (i : ℤ)), [97])

theorem firstOccurrences_replicate (n : ℕ) (a : List UInt8) : firstOccurrences (replicate n a) <+: [a] := by
  induction n with
  | zero => exact nil_prefix
  | succ n ih =>
    rw [replicate_succ', firstOccurrences_snoc]
    split_ifs with h
    · exact ih
    · cases hfo : firstOccurrences (replicate n a) with
      | nil => exact prefix_refl [a]
      | cons b rest =>
        rw [hfo] at ih h
        obtain ⟨rfl, -⟩ := cons_prefix_cons.mp ih
        exact absurd mem_cons_self h

/-- A region for each of 2^30 tokens: both writers succeed, and the last region is not found. -/
theorem regionFiles_large_not_readable :
    ∃ r s, closeRegions exampleFill (tokenRegions (2 ^ 30)) = some r ∧
      sencodeRegions exampleFill (tokenRegions (2 ^ 30)) = some s ∧
      ¬Readable r.rng r.values (tokenRegions (2 ^ 30)) ∧ ¬Readable s.rng s.values (tokenRegions (2 ^ 30)) := by
  have hannot : ∀ n, (tokenRegions n).map Prod.snd = replicate n [97] := by
    intro n
    rw [tokenRegions, map_map]
    exact (map_const' ..).trans (by rw [length_range])
  have hkept : ∀ n, nonEmpty (tokenRegions n) = tokenRegions n := by
    intro n
    rw [nonEmpty, filter_eq_self]
    intro region hregion
    obtain ⟨i, -, rfl⟩ := mem_map.mp hregion
    simp
  have hlen : (tokenRegions (2 ^ 30)).length = 2 ^ 30 := by rw [tokenRegions, length_map, length_range]
  have hsize : (bytes (firstOccurrences ((tokenRegions (2 ^ 30)).map Prod.snd))).length < 2 ^ 31 := by
    rw [hannot]
    exact lt_of_le_of_lt (length_bytes_le (firstOccurrences_replicate _ _)) (by decide)
  have hvalue : ∀ region ∈ tokenRegions (2 ^ 30), region.2 = [97] := by
    intro region hregion
    obtain ⟨i, -, rfl⟩ := mem_map.mp hregion
    rfl
  obtain ⟨r, hr, -, -, hrng, hvalues⟩ := closeRegions_holds exampleFill (tokenRegions (2 ^ 30))
    (fun region h => by rw [hvalue region h]; decide) (by rw [hkept]; exact hsize)
  obtain ⟨s, hs, -, -, hsrng, hsvalues⟩ := sencodeRegions_holds exampleFill (tokenRegions (2 ^ 30)) hsize
  rw [hkept] at hrng hvalues
  have h0 : ∀ region ∈ tokenRegions (2 ^ 30), 0 ∉ region.2 := fun region h => by rw [hvalue region h]; decide
  refine ⟨r, s, hr, hs, ?_, ?_⟩
  · rw [hrng, readable_iff hvalues h0 hsize, hlen]
    exact lt_irrefl _
  · rw [hsrng, readable_iff hsvalues h0 hsize, hlen]
    exact lt_irrefl _

end CWB
