import Mathlib
import CWB.Library.Traverse
import CWB.Proofs.RegionLookup
import CWB.Spec.PrintTags

/-! The tags around the tokens nest. `cwb-decode` and CQP sort the regions that begin or end at a token
from the larger end to the smaller, and regions with the same bounds in the order of the attributes: this is
the order of all start tags, and in reverse that of the end tags. -/

namespace CWB.PrintTags

open Option List NestedTags

/-! ## Regions of a corpus -/

/-- Region `k` of an attribute. -/
def attributeRegion (a : PrintAttribute) (k : ℕ) (bounds : ℤ × ℤ) : SAttRegion where
  name := a.name
  start := bounds.1
  stop := bounds.2
  annot := if a.data.values.isSome then (Cqi.clStruc2str (.struc a.data) k).1 else none

def attributeRegions (a : PrintAttribute) : List SAttRegion := a.data.regions.mapIdx (attributeRegion a)

def allRegions (attrs : List PrintAttribute) : List SAttRegion := attrs.flatMap attributeRegions

/-- The structural attributes of a corpus with `size` tokens: their regions are nested in one another or disjoint. -/
structure CorpusRegions (size : ℕ) (attrs : List PrintAttribute) : Prop where
  size_lt : size < 2 ^ 31
  names : (attrs.map PrintAttribute.name).Nodup
  data : ∀ a ∈ attrs, a.data.strucData = true
  sorted : ∀ a ∈ attrs, Cqi.SortedRegions a.data.regions
  inside : ∀ a ∈ attrs, ∀ r ∈ a.data.regions, r.2 < size
  nested : ∀ a ∈ attrs, ∀ b ∈ attrs, ∀ r ∈ a.data.regions, ∀ r' ∈ b.data.regions,
    NestedOrDisjoint Prod.fst Prod.snd r r'

variable {r : SAttRegion} {a : PrintAttribute}

theorem mem_attributeRegions :
    r ∈ attributeRegions a ↔ ∃ k bounds, a.data.regions[k]? = some bounds ∧ r = attributeRegion a k bounds := by
  rw [attributeRegions, mem_mapIdx]
  refine ⟨fun ⟨k, hk, h⟩ => ⟨k, _, getElem?_eq_getElem hk, h.symm⟩, fun ⟨k, bounds, hget, h⟩ => ?_⟩
  obtain ⟨hk, rfl⟩ := List.getElem?_eq_some_iff.mp hget
  exact ⟨k, hk, h.symm⟩

theorem bounds_mem (h : r ∈ attributeRegions a) :
    (r.start, r.stop) ∈ a.data.regions := by
  obtain ⟨k, bounds, hget, rfl⟩ := mem_attributeRegions.mp h
  exact mem_of_getElem? hget

theorem name_of_mem (h : r ∈ attributeRegions a) : r.name = a.name := by
  obtain ⟨k, bounds, hget, rfl⟩ := mem_attributeRegions.mp h
  rfl

variable {w : ℤ}

/-- What is collected from an attribute at a token of the corpus. -/
theorem boundaryRegion_eq_some_iff (hdata : a.data.strucData = true)
    (hs : Cqi.SortedRegions a.data.regions) (hw : Cqi.Fits w) :
    boundaryRegion a w = some r ↔ r ∈ attributeRegions a ∧ (r.start = w ∨ r.stop = w) := by
  have hmark := Cqi.getPreviousMark_eq_some_iff hs (BitVec.ofInt 32 w)
  rw [hw.toInt] at hmark
  -- a region of the attribute that begins or ends at the token contains it
  have hfound : ∀ (k : ℕ) (bounds : ℤ × ℤ), a.data.regions[k]? = some bounds → (bounds.1 = w ∨ bounds.2 = w) →
      Cqi.getPreviousMark a.data.regions w = some (k : ℤ) := by
    intro k bounds hget hbound
    have := hs.fits bounds (mem_of_getElem? hget)
    exact (hmark k).mpr ⟨by omega, bounds, hget, by omega, by omega⟩
  rw [mem_attributeRegions]
  cases hprevious : Cqi.getPreviousMark a.data.regions w with
  | none =>
    have hfail : Cqi.clCpos2struc (.struc a.data) w = Cqi.Cda.estruc.fail := by
      rw [Cqi.clCpos2struc, if_neg (by simp [hdata]), hprevious]
    have hnone : boundaryRegion a w = none := by
      rw [boundaryRegion, hfail]
      exact if_pos (by decide)
    rw [hnone]
    refine ⟨fun h => absurd h (some_ne_none r).symm, fun hfind => ?_⟩
    obtain ⟨⟨k, bounds, hget, hr⟩, hbound⟩ := hfind
    subst hr
    rw [hfound k bounds hget hbound] at hprevious
    cases hprevious
  | some snum =>
    obtain ⟨h0, bounds, hget, -⟩ := (hmark snum).mp hprevious
    obtain ⟨k, rfl⟩ := Int.eq_ofNat_of_zero_le h0
    have hbounds := (Cqi.clStruc2cpos_eq_iff hdata k bounds).mpr ⟨h0, hget⟩
    have hsome : boundaryRegion a w = if w = bounds.1 ∨ w = bounds.2 then some (attributeRegion a k bounds) else none := by
      rw [boundaryRegion, (Cqi.clCpos2struc_eq_iff hdata w k).mpr hprevious]
      simp only [if_neg (not_lt.mpr h0), hbounds]
      rfl
    rw [hsome]
    refine ⟨fun h => ?_, fun hfind => ?_⟩
    · split_ifs at h with hbound
      obtain rfl := some.inj h
      exact ⟨⟨k, bounds, hget, rfl⟩, hbound.imp Eq.symm Eq.symm⟩
    · obtain ⟨⟨k', bounds', hget', hr⟩, hbound⟩ := hfind
      subst hr
      have hsame := hprevious.symm.trans (hfound k' bounds' hget' hbound)
      obtain rfl : k = k' := by simpa using hsame
      obtain rfl := some.inj (hget.symm.trans hget')
      exact if_pos (hbound.imp Eq.symm Eq.symm)

/-! ## The order of the start tags -/

/-- The place of an attribute in the list. -/
def rank (attrs : List PrintAttribute) (r : SAttRegion) : ℕ := (attrs.map PrintAttribute.name).idxOf r.name

section Ordered

variable {size : ℕ} {attrs : List PrintAttribute} (h : CorpusRegions size attrs)

theorem map_bounds (a : PrintAttribute) : (attributeRegions a).map (fun r => (r.start, r.stop)) = a.data.regions := by
  refine ext_getElem? fun k => ?_
  rw [getElem?_map, attributeRegions, getElem?_mapIdx]
  cases a.data.regions[k]? <;> rfl

theorem nodup_bounds (hs : Cqi.SortedRegions a.data.regions) :
    ((attributeRegions a).map fun r => (r.start, r.stop)).Nodup := by
  rw [map_bounds]
  refine List.Pairwise.imp_of_mem ?_ hs.apart
  rintro r r' hr - hlt rfl
  have := hs.fits r hr
  omega

include h

theorem CorpusRegions.nodup : (allRegions attrs).Nodup := by
  refine nodup_flatMap.mpr ⟨fun a ha => (nodup_bounds (h.sorted a ha)).of_map _, ?_⟩
  refine List.Pairwise.imp ?_ (pairwise_map.mp h.names)
  intro a b hne r hr hr'
  exact hne ((name_of_mem hr).symm.trans (name_of_mem hr'))

/-- The regions of the corpus in the order of their start tags. -/
theorem CorpusRegions.exists_regions :
    ∃ S : List SAttRegion, S.Perm (allRegions attrs) ∧ Regions SAttRegion.start SAttRegion.stop (rank attrs) S := by
  obtain ⟨S, hperm, hordered⟩ :=
    (exists_ordered h.nodup : _ → ∃ S : List SAttRegion, S.Perm (allRegions attrs) ∧
      S.Pairwise (NestedTags.Before SAttRegion.start SAttRegion.stop (rank attrs)))
    fun r hr r' hr' hstart hstop hrank => by
      obtain ⟨a, ha, hra⟩ := mem_flatMap.mp hr
      obtain ⟨b, hb, hrb⟩ := mem_flatMap.mp hr'
      have hname : r.name = r'.name :=
        (idxOf_inj (by rw [name_of_mem hra]; exact mem_map_of_mem ha)).mp hrank
      rw [name_of_mem hra, name_of_mem hrb] at hname
      obtain rfl := inj_on_of_nodup_map h.names ha hb hname
      exact inj_on_of_nodup_map (nodup_bounds (h.sorted a ha)) hra hrb (Prod.ext hstart hstop)
  refine ⟨S, hperm, hordered, fun r hr => ?_, fun r hr r' hr' => ?_⟩
  · obtain ⟨a, ha, hra⟩ := mem_flatMap.mp (hperm.mem_iff.mp hr)
    exact ((h.sorted a ha).fits _ (bounds_mem hra)).2.1
  · obtain ⟨a, ha, hra⟩ := mem_flatMap.mp (hperm.mem_iff.mp hr)
    obtain ⟨b, hb, hrb⟩ := mem_flatMap.mp (hperm.mem_iff.mp hr')
    exact h.nested a ha b hb _ (bounds_mem hra) _ (bounds_mem hrb)

end Ordered

/-! ## One token -/

/-- The regions that begin or end at a token, by attribute. -/
def boundaries (attrs : List PrintAttribute) (w : ℤ) : List SAttRegion := attrs.filterMap fun a => boundaryRegion a w

/-- One round of the loop that collects the regions. -/
def collectRound (size : ℕ) (w : ℤ) (sAttRegions : List SAttRegion) (a : PrintAttribute) : Option (List SAttRegion) :=
  match boundaryRegion a w with
  | none => some sAttRegions
  | some region => if sAttRegions.length < size then some (sAttRegions ++ [region]) else none

theorem collectRegions_eq (size : ℕ) (w : ℤ) (attrs : List PrintAttribute) :
    collectRegions size w attrs = if (boundaries attrs w).length ≤ size then some (boundaries attrs w) else none := by
  have hfold : ∀ (attrs : List PrintAttribute) (acc : List SAttRegion), acc.length ≤ size →
      attrs.foldlM (collectRound size w) acc =
      if (acc ++ boundaries attrs w).length ≤ size then some (acc ++ boundaries attrs w) else none := by
    intro attrs
    induction attrs with
    | nil =>
      intro acc hacc
      rw [boundaries, filterMap_nil, append_nil, if_pos hacc]
      rfl
    | cons a attrs ih =>
      intro acc hacc
      rw [foldlM_cons, collectRound]
      cases hregion : boundaryRegion a w with
      | none =>
        have hcons : boundaries (a :: attrs) w = boundaries attrs w := filterMap_cons_none hregion
        rw [hcons]
        exact ih acc hacc
      | some region =>
        have hcons : acc ++ boundaries (a :: attrs) w = acc ++ [region] ++ boundaries attrs w := by
          rw [boundaries, filterMap_cons_some (f := fun a => boundaryRegion a w) hregion, append_assoc]
          rfl
        rw [hcons]
        by_cases hroom : acc.length < size
        · simp only [if_pos hroom]
          exact ih (acc ++ [region]) (by rw [length_append]; exact hroom)
        · rw [if_neg (by simp only [length_append, length_singleton]; omega)]
          simp only [if_neg hroom]
          rfl
  exact hfold attrs [] (Nat.zero_le _)

theorem filterMap_range_getElem {α : Type} (l : List α) : ((range l.length).filterMap fun i => l[i]?) = l := by
  induction l with
  | nil => rfl
  | cons a l ih =>
    have hhead : (a :: l)[0]? = some a := rfl
    rw [length_cons, range_succ_eq_map, filterMap_cons, hhead, filterMap_map]
    exact congrArg (a :: ·) ih

/-- The sorted regions of a token. -/
structure Sorted (attrs : List PrintAttribute) (regions sorted : List SAttRegion) : Prop where
  perm : sorted.Perm regions
  ordered : sorted.Pairwise fun a b => outOfOrder a b = false ∧ (outOfOrder b a = false → rank attrs a < rank attrs b)

theorem outOfOrder_asymm {a b : SAttRegion} (h : outOfOrder a b = true) : outOfOrder b a = false := by
  simp only [outOfOrder, Bool.or_eq_true, Bool.and_eq_true, decide_eq_true_eq, Bool.or_eq_false_iff, Bool.and_eq_false_iff,
    decide_eq_false_iff_not] at *
  omega

theorem outOfOrder_trans {a b c : SAttRegion} (h : outOfOrder a b = false) (h' : outOfOrder b c = false) :
    outOfOrder a c = false := by
  simp only [outOfOrder, Bool.or_eq_false_iff, Bool.and_eq_false_iff, decide_eq_false_iff_not] at *
  omega

/-- The comparison of the bubble sort, on indices. -/
def swapsAt (regions : List SAttRegion) (i j : ℕ) : Bool :=
  match regions[i]?, regions[j]? with
  | some a, some b => outOfOrder a b
  | _, _ => false

/-- The bubble sort ends; among regions with the same bounds the order of the attributes stays. -/
theorem sortIndex_spec {attrs : List PrintAttribute} {regions : List SAttRegion}
    (hrank : regions.Pairwise fun a b => rank attrs a < rank attrs b) :
    ∃ sarSortIndex, sortIndex regions = some sarSortIndex ∧
      Sorted attrs regions (sarSortIndex.filterMap fun i => regions[i]?) := by
  let swap := swapsAt regions
  have hswap : ∀ {i j a b}, regions[i]? = some a → regions[j]? = some b → swap i j = outOfOrder a b := by
    intro i j a b ha hb
    simp only [swap, swapsAt, ha, hb]
  have hasymm : ∀ i j, swap i j = true → swap j i = false := by
    intro i j h
    cases ha : regions[i]? with
    | none => simp [swap, swapsAt, ha] at h
    | some a =>
      cases hb : regions[j]? with
      | none => simp [swap, swapsAt, ha, hb] at h
      | some b =>
        rw [hswap ha hb] at h
        rw [hswap hb ha]
        exact outOfOrder_asymm h
  have hget : ∀ i ∈ range regions.length, ∃ a, regions[i]? = some a := fun i hi =>
    ⟨_, getElem?_eq_getElem (mem_range.mp hi)⟩
  obtain ⟨sarSortIndex, hsort⟩ := isSome_iff_exists.mp (BubbleSort.sort_isSome hasymm (range regions.length))
  obtain ⟨hperm, hstable, hordered⟩ := BubbleSort.sort_spec (R := fun i j => swap j i = false → swap i j = false → i < j)
    (fun i j hij hswap' => absurd hij (by simp [hswap']))
    (fun i hi j hj k hk hij hjk => by
      obtain ⟨a, ha⟩ := hget i hi
      obtain ⟨b, hb⟩ := hget j hj
      obtain ⟨c, hc⟩ := hget k hk
      rw [hswap ha hb] at hij
      rw [hswap hb hc] at hjk
      rw [hswap ha hc]
      exact outOfOrder_trans hij hjk)
    (pairwise_lt_range.imp fun hlt _ _ => hlt) hsort
  refine ⟨sarSortIndex, hsort, ?_, ?_⟩
  · have := hperm.filterMap fun i => regions[i]?
    rwa [filterMap_range_getElem] at this
  · refine pairwise_filterMap.mpr ((pairwise_and_iff.mpr ⟨hstable, hordered⟩).imp fun {i j} hij a ha b hb => ?_)
    obtain ⟨hstable, hordered⟩ := hij
    rw [hswap ha hb] at hordered
    refine ⟨hordered, fun hback => ?_⟩
    have hlt := hstable (by rw [hswap hb ha, hback]) (by rw [hswap ha hb, hordered])
    obtain ⟨hi, rfl⟩ := List.getElem?_eq_some_iff.mp ha
    obtain ⟨hj, rfl⟩ := List.getElem?_eq_some_iff.mp hb
    exact pairwise_iff_getElem.mp hrank i j hi hj hlt

section Token

variable {size : ℕ} {attrs : List PrintAttribute} (h : CorpusRegions size attrs)

include h

theorem CorpusRegions.mem_boundaries (hw : 0 ≤ w ∧ w < size) :
    r ∈ boundaries attrs w ↔ r ∈ allRegions attrs ∧ (r.start = w ∨ r.stop = w) := by
  have := h.size_lt
  have hfits : Cqi.Fits w := ⟨by omega, by omega⟩
  rw [boundaries, mem_filterMap, allRegions, mem_flatMap]
  refine ⟨fun ⟨a, ha, hr⟩ => ?_, fun ⟨⟨a, ha, hr⟩, hbound⟩ => ?_⟩
  · obtain ⟨hr, hbound⟩ := (boundaryRegion_eq_some_iff (h.data a ha) (h.sorted a ha) hfits).mp hr
    exact ⟨⟨a, ha, hr⟩, hbound⟩
  · exact ⟨a, ha, (boundaryRegion_eq_some_iff (h.data a ha) (h.sorted a ha) hfits).mpr ⟨hr, hbound⟩⟩

/-- The regions are collected in the order of the attributes. -/
theorem CorpusRegions.boundaries_rank (hw : 0 ≤ w ∧ w < size) :
    (boundaries attrs w).Pairwise fun r r' => rank attrs r < rank attrs r' := by
  have := h.size_lt
  have hfits : Cqi.Fits w := ⟨by omega, by omega⟩
  have hname : ∀ a ∈ attrs, ∀ r, boundaryRegion a w = some r → r.name = a.name := fun a ha r hr =>
    name_of_mem ((boundaryRegion_eq_some_iff (h.data a ha) (h.sorted a ha) hfits).mp hr).1
  have hattrs : attrs.Pairwise fun a b =>
      (attrs.map PrintAttribute.name).idxOf a.name < (attrs.map PrintAttribute.name).idxOf b.name := by
    rw [pairwise_iff_getElem]
    intro i j hi hj hlt
    have hi' : i < (attrs.map PrintAttribute.name).length := by rwa [length_map]
    have hj' : j < (attrs.map PrintAttribute.name).length := by rwa [length_map]
    rw [← getElem_map PrintAttribute.name (h := hi'), ← getElem_map PrintAttribute.name (h := hj'),
      h.names.idxOf_getElem, h.names.idxOf_getElem]
    exact hlt
  refine pairwise_filterMap.mpr (hattrs.imp_of_mem fun {a b} ha hb hlt r hr r' hr' => ?_)
  rw [rank, rank, hname a ha r hr, hname b hb r' hr']
  exact hlt

/-- The sorted regions that begin at the token stand in the order of all start tags, and so do those that end there. -/
theorem CorpusRegions.sorted_filter (hw : 0 ≤ w ∧ w < size) {S sorted : List SAttRegion}
    (hperm : S.Perm (allRegions attrs))
    (hS : Regions SAttRegion.start SAttRegion.stop (rank attrs) S) (hsorted : Sorted attrs (boundaries attrs w) sorted) :
    sorted.filter (fun r => r.start = w) = S.filter (fun r => r.start = w) ∧
      sorted.filter (fun r => r.stop = w) = S.filter (fun r => r.stop = w) := by
  have hmem : ∀ r, r ∈ sorted ↔ r ∈ S ∧ (r.start = w ∨ r.stop = w) := fun r => by
    rw [hsorted.perm.mem_iff, h.mem_boundaries hw, hperm.mem_iff]
  have hbefore : ∀ P : SAttRegion → Bool,
      (∀ r r', P r = true → P r' = true → r.start = r'.start ∨ r.stop = r'.stop) →
      (sorted.filter P).Pairwise (NestedTags.Before SAttRegion.start SAttRegion.stop (rank attrs)) := by
    intro P hP
    refine (hsorted.ordered.filter P).imp_of_mem fun {r r'} hr hr' hlt => ?_
    have hsame := hP r r' (mem_filter.mp hr).2 (mem_filter.mp hr').2
    obtain ⟨horder, hrank⟩ := hlt
    simp only [outOfOrder, Bool.or_eq_false_iff, Bool.and_eq_false_iff, decide_eq_false_iff_not] at horder hrank
    unfold NestedTags.Before
    by_cases hbounds : r.start = r'.start ∧ r.stop = r'.stop
    · have := hrank (by omega)
      omega
    · omega
  refine ⟨eq_filter hS.ordered (hbefore _ fun r r' hr hr' => ?_) fun r => ?_,
    eq_filter hS.ordered (hbefore _ fun r r' hr hr' => ?_) fun r => ?_⟩
  · simp only [decide_eq_true_eq] at hr hr'
    exact .inl (hr.trans hr'.symm)
  · rw [mem_filter, hmem]
    simp only [decide_eq_true_eq]
    tauto
  · simp only [decide_eq_true_eq] at hr hr'
    exact .inr (hr.trans hr'.symm)
  · rw [mem_filter, hmem]
    simp only [decide_eq_true_eq]
    tauto

/-- What is printed around a token, and when its text and the regions fit into their buffers. -/
theorem CorpusRegions.printedTags_spec (hw : 0 ≤ w ∧ w < size) {S : List SAttRegion}
    (hperm : S.Perm (allRegions attrs))
    (hS : Regions SAttRegion.start SAttRegion.stop (rank attrs) S) (capacity : ℕ)
    (startTag : SAttRegion → Option (List UInt8)) (endTag : SAttRegion → List UInt8) :
    ((printedTags capacity sortIndex startTag endTag attrs w).isSome ↔
        (boundaries attrs w).length ≤ capacity ∧ ∀ r ∈ S, r.start = w → (startTag r).isSome) ∧
      ∀ out, printedTags capacity sortIndex startTag endTag attrs w = some out →
        out.map Prod.fst = tagsAt SAttRegion.start SAttRegion.stop S w := by
  obtain ⟨sarSortIndex, hsort, hsorted⟩ := sortIndex_spec (h.boundaries_rank hw)
  obtain ⟨hstarts, hstops⟩ := h.sorted_filter hw hperm hS hsorted
  rw [printedTags, collectRegions_eq]
  by_cases hroom : (boundaries attrs w).length ≤ capacity
  · rw [if_pos hroom]
    simp only [bind_eq_bind, bind_some, hsort, tokenTags, hstarts, filter_reverse, hstops]
    refine ⟨?_, fun out hout => ?_⟩
    · have hisSome : ∀ r, ((startTag r).map fun t => (Tag.opening r, t)).isSome = (startTag r).isSome := fun r => by
        rw [isSome_map]
      rw [isSome_bind]
      simp only [Option.pure_def, isSome_some, any_true, Traverse.mapM_isSome_iff, hisSome, mem_filter,
        decide_eq_true_eq, and_imp, hroom, true_and]
    · obtain ⟨starts, hstart, hout⟩ := bind_eq_some_iff.mp hout
      obtain rfl := some.inj hout
      have hfst := Traverse.map_of_mapM (g := Prod.fst) (h := Tag.opening) (fun r _ p hp => by
        obtain ⟨t, -, rfl⟩ := map_eq_some_iff.mp hp
        rfl) hstart
      rw [map_append, hfst, List.map_map, tagsAt]
      rfl
  · rw [if_neg hroom]
    refine ⟨⟨fun hnone => absurd hnone Bool.false_ne_true, fun hfits => absurd hfits.1 hroom⟩, fun out hout => ?_⟩
    exact absurd hout (some_ne_none out).symm

end Token

/-! ## All tokens -/

/-- The program prints tags that nest, and opens and closes every region once. -/
def Nests (printed : Option (List (Tag SAttRegion × List UInt8))) (attrs : List PrintAttribute) : Prop :=
  ∃ out, printed = some out ∧ WellNested (out.map Prod.fst) ∧ ∀ r,
    (out.map Prod.fst).count (.opening r) = (allRegions attrs).count r ∧
    (out.map Prod.fst).count (.closing r) = (allRegions attrs).count r

theorem mem_allRegions_of_opening {S : List SAttRegion} {n : ℕ}
    (h : .opening r ∈ tags SAttRegion.start SAttRegion.stop S n ∨ .closing r ∈ tags SAttRegion.start SAttRegion.stop S n) :
    r ∈ S := by
  obtain h | h := h
  · obtain ⟨k, -, hk⟩ := mem_flatMap.mp h
    exact (opening_mem_tagsAt.mp hk).1
  · obtain ⟨k, -, hk⟩ := mem_flatMap.mp h
    exact (closing_mem_tagsAt.mp hk).1

section Corpus

variable {size : ℕ} {attrs : List PrintAttribute} (h : CorpusRegions size attrs)

include h

theorem CorpusRegions.within (hr : r ∈ allRegions attrs) :
    0 ≤ r.start ∧ r.start ≤ r.stop ∧ r.stop < size := by
  obtain ⟨a, ha, hra⟩ := mem_flatMap.mp hr
  have hfits := (h.sorted a ha).fits _ (bounds_mem hra)
  exact ⟨hfits.1, hfits.2.1, h.inside a ha _ (bounds_mem hra)⟩

/-- The tokens one after the other. -/
theorem CorpusRegions.nests_iff (capacity : ℕ) (startTag : ℤ → SAttRegion → Option (List UInt8))
    (endTag : ℤ → SAttRegion → List UInt8) :
    Nests (do
      let out ← (range size).mapM fun k : ℕ => printedTags capacity sortIndex (startTag k) (endTag k) attrs k
      pure out.flatten) attrs ↔
    (∀ w : ℕ, w < size → (boundaries attrs w).length ≤ capacity) ∧
      ∀ r ∈ allRegions attrs, (startTag r.start r).isSome := by
  obtain ⟨S, hperm, hS⟩ := h.exists_regions
  have hwithin : ∀ r ∈ S, 0 ≤ r.start ∧ r.start ≤ r.stop ∧ r.stop < size := fun r hr => h.within (hperm.mem_iff.mp hr)
  have hspec := fun (w : ℕ) (hw : w < size) =>
    h.printedTags_spec (w := w) ⟨by omega, by omega⟩ hperm hS capacity (startTag w) (endTag w)
  have hfits : (∀ w : ℕ, w < size → (printedTags capacity sortIndex (startTag w) (endTag w) attrs w).isSome) ↔
      (∀ w : ℕ, w < size → (boundaries attrs w).length ≤ capacity) ∧
        ∀ r ∈ allRegions attrs, (startTag r.start r).isSome := by
    refine ⟨fun hall => ⟨fun w hw => (((hspec w hw).1).mp (hall w hw)).1, fun r hr => ?_⟩,
      fun ⟨hroom, htext⟩ w hw => ?_⟩
    · have hrS := hperm.mem_iff.mpr hr
      have := hwithin r hrS
      have hstart : ((r.start.toNat : ℕ) : ℤ) = r.start := by omega
      have hall := (((hspec r.start.toNat (by omega)).1).mp (hall _ (by omega))).2 r hrS hstart.symm
      rwa [hstart] at hall
    · refine ((hspec w hw).1).mpr ⟨hroom w hw, fun r hr hstart => ?_⟩
      have := htext r (hperm.mem_iff.mp hr)
      rwa [hstart] at this
  have hmapM := Traverse.mapM_isSome_iff (l := range size)
    (f := fun k : ℕ => printedTags capacity sortIndex (startTag k) (endTag k) attrs k)
  rw [← hfits]
  refine ⟨fun hnests w hw => ?_, fun hall => ?_⟩
  · obtain ⟨out, hout, -⟩ := hnests
    obtain ⟨outs, houts, -⟩ := bind_eq_some_iff.mp hout
    exact hmapM.mp (by rw [houts]; rfl) w (mem_range.mpr hw)
  · obtain ⟨outs, houts⟩ := isSome_iff_exists.mp (hmapM.mpr fun w hw => hall w (mem_range.mp hw))
    have htags : outs.flatten.map Prod.fst = tags SAttRegion.start SAttRegion.stop S size := by
      rw [map_flatten, Traverse.map_of_mapM (fun w hw out hout => (hspec w (mem_range.mp hw)).2 out hout) houts, tags,
        flatMap_def]
    refine ⟨outs.flatten, by rw [houts]; rfl, ?_, fun r => ?_⟩
    · rw [htags]
      exact hS.wellNested (fun r hr => (hwithin r hr).1) fun r hr => (hwithin r hr).2.2
    · rw [htags]
      by_cases hr : r ∈ S
      · obtain ⟨hopening, hclosing⟩ := hS.count_tags (fun r hr => (hwithin r hr).1) (fun r hr => (hwithin r hr).2.2) hr
        rw [hopening, hclosing, count_eq_one_of_mem h.nodup (hperm.mem_iff.mp hr)]
        exact ⟨rfl, rfl⟩
      · have hnone : r ∉ allRegions attrs := fun hall => hr (hperm.mem_iff.mpr hall)
        rw [count_eq_zero_of_not_mem hnone,
          count_eq_zero_of_not_mem fun hmem => hr (mem_allRegions_of_opening (.inl hmem)),
          count_eq_zero_of_not_mem fun hmem => hr (mem_allRegions_of_opening (.inr hmem))]
        exact ⟨rfl, rfl⟩

theorem CorpusRegions.length_boundaries (hw : 0 ≤ w ∧ w < size) :
    (boundaries attrs w).length = (attrs.filter fun a => a.data.regions.any fun r => r.1 = w ∨ r.2 = w).length := by
  have := h.size_lt
  have hfits : Cqi.Fits w := ⟨by omega, by omega⟩
  rw [boundaries, length_filterMap_eq_countP, countP_eq_length_filter]
  congr 1
  refine filter_congr fun a ha => ?_
  rw [Bool.eq_iff_iff, isSome_iff_exists, List.any_eq_true]
  refine ⟨fun ⟨r, hr⟩ => ?_, fun ⟨bounds, hbounds, hbound⟩ => ?_⟩
  · obtain ⟨hr, hbound⟩ := (boundaryRegion_eq_some_iff (h.data a ha) (h.sorted a ha) hfits).mp hr
    exact ⟨_, bounds_mem hr, by simpa using hbound⟩
  · obtain ⟨k, hk⟩ := mem_iff_getElem?.mp hbounds
    exact ⟨attributeRegion a k bounds, (boundaryRegion_eq_some_iff (h.data a ha) (h.sorted a ha) hfits).mpr
      ⟨mem_attributeRegions.mpr ⟨k, bounds, hk, rfl⟩, of_decide_eq_true hbound⟩⟩

end Corpus

theorem isSome_decodeStartTag (mode : OutputMode) (printnum : Bool) (w : ℤ) (r : SAttRegion) :
    (decodeStartTag mode printnum w r).isSome ↔
      (mode = .xml → ∀ annot ∈ r.annot, ((text annot).flatMap escapeChar).length < CL_MAX_LINE_LENGTH) := by
  rw [decodeStartTag]
  by_cases hmode : mode = .xml
  · rw [if_pos hmode]
    cases hannot : r.annot with
    | none => simp
    | some annot =>
      simp only [hmode, mem_def, some.injEq, forall_eq', true_imp_iff]
      have hcoded : (decodeStringEscape (text annot)).isSome ↔
          ((text annot).flatMap escapeChar).length < CL_MAX_LINE_LENGTH := isSome_ite
      rw [← hcoded]
      cases decodeStringEscape (text annot) <;> rfl
  · rw [if_neg hmode]
    exact ⟨fun _ hxml => absurd hxml hmode, fun _ => rfl⟩

/-- The characters of a start tag between its brackets. -/
def bodyLength (showTagAttributes : Bool) (r : SAttRegion) : ℕ :=
  match showTagAttributes, r.annot with
  | true, some annot => r.name.bytes.length + 1 + annot.bytes.length
  | _, _ => r.name.bytes.length

theorem isSome_positionStartTag (showTagAttributes : Bool) (pdr : PrintDescription) (r : SAttRegion) :
    (positionStartTag showTagAttributes pdr r).isSome ↔ bodyLength showTagAttributes r < CL_MAX_LINE_LENGTH := by
  have hbody : (positionStartTag showTagAttributes pdr r).isSome = (tagBody showTagAttributes r).isSome := by
    rw [positionStartTag]
    cases tagBody showTagAttributes r <;> rfl
  have hlength : ∀ s : CString, (text s).length = s.bytes.length := fun s => length_map ..
  rw [hbody]
  cases showTagAttributes with
  | false =>
    simp only [tagBody, bodyLength]
    rw [isSome_ite, hlength]
  | true =>
    cases hannot : r.annot with
    | none =>
      simp only [tagBody, bodyLength, hannot]
      rw [isSome_ite, hlength]
    | some annot =>
      simp only [tagBody, bodyLength, hannot]
      rw [isSome_ite, length_append, length_append, hlength, hlength]
      rfl

section Claim

variable {size : ℕ}

/-- `cwb-decode`. -/
theorem decode_nests_iff {mode : OutputMode} (hmode : mode.printsTags = true) (printnum : Bool) (printList : PrintList)
    (h : CorpusRegions size printList.list) :
    Nests (decodePrintTokenSequence mode printnum printList 0 (size - 1)) printList.list ↔
      (mode = .xml → ∀ r ∈ allRegions printList.list, ∀ annot ∈ r.annot,
        ((text annot).flatMap escapeChar).length < CL_MAX_LINE_LENGTH) := by
  have hprinted : decodePrintTokenSequence mode printnum printList 0 (size - 1) = (do
      let out ← (range size).mapM fun k : ℕ =>
        printedTags MAX_ATTRS sortIndex (decodeStartTag mode printnum k) (decodeEndTag mode printnum k) printList.list k
      pure out.flatten) := by
    have hrange : ((size : ℤ) - 1 + 1 - 0).toNat = size := by omega
    rw [decodePrintTokenSequence, hrange]
    simp only [decodeTokenTags, if_pos hmode, zero_add]
    rfl
  have hroom : ∀ w : ℕ, w < size → (boundaries printList.list w).length ≤ MAX_ATTRS := fun w _ =>
    (length_filterMap_le _ _).trans printList.length_le
  rw [hprinted, h.nests_iff]
  simp only [isSome_decodeStartTag]
  exact ⟨fun hall hxml r hr annot hannot => hall.2 r hr hxml annot hannot,
    fun hall => ⟨hroom, fun r hr hxml annot hannot => hall hxml r hr annot hannot⟩⟩

/-- A concordance of the whole corpus. -/
theorem concordance_nests_iff (showTagAttributes : Bool) (pdr : PrintDescription) (strucAttributes : AttributeList)
    (h : CorpusRegions size (shown strucAttributes)) :
    Nests (concordanceTags showTagAttributes pdr strucAttributes 0 (size - 1)) (shown strucAttributes) ↔
      (∀ w : ℕ, w < size →
        ((shown strucAttributes).filter fun a => a.data.regions.any fun r => r.1 = w ∨ r.2 = w).length ≤ MAX_S_ATTRS) ∧
      ∀ r ∈ allRegions (shown strucAttributes), bodyLength showTagAttributes r < CL_MAX_LINE_LENGTH := by
  have hprinted : concordanceTags showTagAttributes pdr strucAttributes 0 (size - 1) = (do
      let out ← (range size).mapM fun k : ℕ =>
        printedTags MAX_S_ATTRS sortIndex (positionStartTag showTagAttributes pdr) (positionEndTag pdr) (shown strucAttributes) k
      pure out.flatten) := by
    have hrange : ((size : ℤ) - 1 + 1 - 0).toNat = size := by omega
    rw [concordanceTags, hrange]
    simp only [getPositionValues, zero_add]
    rfl
  have hlength : ∀ w : ℕ, w < size → (boundaries (shown strucAttributes) w).length =
      ((shown strucAttributes).filter fun a => a.data.regions.any fun r => r.1 = w ∨ r.2 = w).length := fun w hw =>
    h.length_boundaries ⟨by omega, by omega⟩
  rw [hprinted, h.nests_iff MAX_S_ATTRS (fun _ => positionStartTag showTagAttributes pdr) fun _ => positionEndTag pdr]
  simp only [isSome_positionStartTag]
  refine and_congr (forall₂_congr fun w hw => ?_) Iff.rfl
  rw [hlength w hw]

/-- A corpus of one token in a region `s` with an annotation. -/
def oneToken (annot : CString) : PrintAttribute where
  name := ⟨[115], by decide⟩
  data := { regions := [(0, 0)], values := some [(0, annot)], strucData := true, strucValues := true }

theorem corpusRegions_oneToken (annot : CString) : CorpusRegions 1 [oneToken annot] where
  size_lt := by decide
  names := nodup_singleton _
  data a ha := by
    obtain rfl := mem_singleton.mp ha
    rfl
  sorted a ha := by
    obtain rfl := mem_singleton.mp ha
    refine ⟨?_, pairwise_singleton _ _⟩
    intro r hr
    obtain rfl := mem_singleton.mp hr
    decide
  inside a ha r hr := by
    obtain rfl := mem_singleton.mp ha
    obtain rfl := mem_singleton.mp hr
    decide
  nested a ha b hb r hr r' hr' := by
    obtain rfl := mem_singleton.mp ha
    obtain rfl := mem_singleton.mp hb
    obtain rfl := mem_singleton.mp hr
    obtain rfl := mem_singleton.mp hr'
    exact .inr (.inr (.inl ⟨le_rfl, le_rfl⟩))

theorem oneToken_mem (annot : CString) : attributeRegion (oneToken annot) 0 (0, 0) ∈ allRegions [oneToken annot] :=
  mem_flatMap.mpr ⟨oneToken annot, mem_singleton_self _, mem_attributeRegions.mpr ⟨0, (0, 0), rfl, rfl⟩⟩

theorem bodyLength_oneToken (annot : CString) :
    bodyLength true (attributeRegion (oneToken annot) 0 (0, 0)) = 1 + 1 + annot.bytes.length := rfl

def oneTokenPrintList (annot : CString) : PrintList where
  list := [oneToken annot]
  names := nodup_singleton _
  length_le := (by decide : 1 ≤ MAX_ATTRS)

def oneTokenAttributes (annot : CString) : AttributeList where
  list := [⟨oneToken annot, true⟩]
  names := nodup_singleton _

/-- The tags of SGML output, `<s x>` and `</s>`. -/
def sgmlPrintDescription : PrintDescription where
  structureBeginPrefix := ascii "<"
  structureBeginSuffix := ascii ">"
  structureEndPrefix := ascii "</"
  structureEndSuffix := ascii ">"
  printToken := none

def shortAnnotation : CString := ⟨[120], by decide⟩

/-- The longest annotation that `cwb-encode` stores. -/
def longAnnotation : CString := ⟨replicate (CL_MAX_LINE_LENGTH - 1) 120, fun h => by
  have := (mem_replicate.mp h).2
  revert this
  decide⟩

end Claim

end CWB.PrintTags
