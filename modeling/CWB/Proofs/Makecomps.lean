import Mathlib.Algebra.Order.BigOperators.Group.Finset
import Mathlib.Data.List.GetD
import CWB.Spec.Makecomps

/-! The components derived from a token stream: the frequency list counts the tokens,
the reversed corpus lists the positions of one ID after the other however small the
buffer is, and its index gives the place where the positions of an ID begin. -/

namespace CWB

open Function List

theorem positions_snoc (ids : List ℕ) (x id : ℕ) :
    positions (ids ++ [x]) id = positions ids id ++ if x = id then [ids.length] else [] := by
  unfold positions
  rw [length_append, length_singleton, range_succ, filter_append]
  congr 1
  · refine filter_congr fun cpos hc => ?_
    rw [getElem?_append_left (mem_range.mp hc)]
  · simp [filter_cons]

theorem positions_length (ids : List ℕ) (id : ℕ) : (positions ids id).length = ids.count id := by
  induction ids using reverseRecOn with
  | nil => rfl
  | append_singleton ids x ih =>
    rw [positions_snoc, length_append, ih, count_append, count_singleton]
    congr 1
    by_cases h : x = id <;> simp [h]

theorem positions_sorted (ids : List ℕ) (id : ℕ) : (positions ids id).Pairwise (· < ·) :=
  pairwise_lt_range.filter _

theorem creatFreqs_eq (ids : List ℕ) (lexsize : ℕ) :
    creatFreqs ids lexsize = (range lexsize).map fun id => ids.count id := by
  induction ids using reverseRecOn with
  | nil => simp [creatFreqs]
  | append_singleton ids x ih =>
    rw [creatFreqs, foldl_append, foldl_cons, foldl_nil, ← creatFreqs, ih]
    refine ext_getElem? fun i => ?_
    by_cases hx : x < lexsize
    · rw [if_pos hx, getElem?_modify]
      by_cases hi : i < lexsize <;> by_cases h : x = i <;> simp [hi, h, count_singleton]
    · rw [if_neg hx]
      by_cases hi : i < lexsize
      · have h : x ≠ i := by omega
        simp [hi, count_singleton, h]
      · simp [hi]

/-- Where the positions of `id` begin in the reversed corpus. -/
def revStart (ids : List ℕ) (id : ℕ) : ℕ := ((range id).flatMap (positions ids)).length

theorem revStart_succ (ids : List ℕ) (id : ℕ) : revStart ids (id + 1) = revStart ids id + ids.count id := by
  rw [revStart, range_succ, flatMap_append, length_append, flatMap_singleton,
    positions_length, revStart]

theorem revStart_mono (ids : List ℕ) {i j : ℕ} (h : i ≤ j) : revStart ids i ≤ revStart ids j := by
  induction j, h using Nat.le_induction with
  | base => exact le_rfl
  | succ j _ ih => rw [revStart_succ]; omega

theorem revStart_eq_length {ids : List ℕ} {lexsize : ℕ} (h : ∀ id ∈ ids, id < lexsize) :
    revStart ids lexsize = ids.length := by
  have hsum : ∀ n, revStart ids n = ∑ i ∈ Finset.range n, (ids : Multiset ℕ).count i := by
    intro n
    induction n with
    | zero => rfl
    | succ n ih => rw [revStart_succ, ih, Finset.sum_range_succ, Multiset.coe_count]
  rw [hsum, Multiset.sum_count_eq_card (by simpa using h), Multiset.coe_card]

theorem creatRevCorpusIdx_eq (ids : List ℕ) (lexsize : ℕ) :
    creatRevCorpusIdx (creatFreqs ids lexsize) = (range lexsize).map (revStart ids) := by
  have hfold : ∀ n, ((range n).map fun id => ids.count id).foldl
      (fun (p : List ℕ × ℕ) i => (p.1 ++ [p.2], p.2 + i)) ([], 0) =
      ((range n).map (revStart ids), revStart ids n) := by
    intro n
    induction n with
    | zero => rfl
    | succ n ih =>
      rw [range_succ, map_append, foldl_append, ih, revStart_succ, map_append]
      rfl
  rw [creatRevCorpusIdx, creatFreqs_eq, hfold]

theorem range_split {i n : ℕ} (h : i < n) :
    range n = range i ++ i :: range' (i + 1) (n - (i + 1)) := by
  rw [← range'_succ, range_eq_range', range_eq_range']
  simpa [show i + (n - (i + 1) + 1) = n by omega] using
    (range'_append_1 (s := 0) (m := i) (n := n - (i + 1) + 1)).symm

variable {primus : ℕ}

section Pass

variable {ids : List ℕ} {lexsize : ℕ}

theorem freqs_getElem? {i : ℕ} (h : i < lexsize) : (creatFreqs ids lexsize)[i]? = some (ids.count i) := by
  simp [creatFreqs_eq, h]

/-- The buffer is divided among the IDs of the pass as the reversed corpus is. -/
theorem fitIds_spec (first c bufsize fuel secundus used : ℕ) (ptab : ℕ → ℕ) (hs : secundus ≤ lexsize)
    (hc : used + c = revStart ids secundus)
    (hp : ∀ i, first ≤ i → i < secundus → ptab i + c = revStart ids i) :
    ∃ limit used' ptab', fitIds (creatFreqs ids lexsize) bufsize fuel secundus used ptab = (limit, used', ptab') ∧
      secundus ≤ limit ∧ limit ≤ lexsize ∧ used' + c = revStart ids limit ∧
      ∀ i, first ≤ i → i < limit → ptab' i + c = revStart ids i := by
  induction fuel generalizing secundus used ptab with
  | zero => exact ⟨secundus, used, ptab, rfl, le_rfl, hs, hc, hp⟩
  | succ fuel ih =>
    unfold fitIds
    by_cases hlt : secundus < lexsize
    · rw [freqs_getElem? hlt]
      by_cases hfull : used + ids.count secundus > bufsize
      · exact ⟨secundus, used, ptab, by simp [hfull], le_rfl, hs, hc, hp⟩
      · simp only [if_neg hfull]
        obtain ⟨limit, used', ptab', heq, hle, hrest⟩ := ih (secundus + 1) (used + ids.count secundus)
          (update ptab secundus used) hlt (by rw [revStart_succ]; omega) (by
            intro i hi hlt'
            by_cases h : i = secundus
            · subst h; rw [update_self, hc]
            · rw [update_of_ne h]; exact hp i hi (by omega))
        exact ⟨limit, used', ptab', heq, by omega, hrest⟩
    · have : (creatFreqs ids lexsize)[secundus]? = none := by simp [creatFreqs_eq]; omega
      rw [this]
      exact ⟨secundus, used, ptab, rfl, le_rfl, hs, hc, hp⟩

/-- What a pass over the tokens `pre` has done, `c` being the place of the buffer's
first cell in the reversed corpus. -/
structure PassInv (ids : List ℕ) (primus limit c : ℕ) (file : List ℕ) (pre : List ℕ) (s : RevPass) : Prop where
  file_eq : s.file = file ++ positions pre primus
  ptab_eq : ∀ id, primus < id → id < limit → s.ptab id + c = revStart ids id + (positions pre id).length
  buffer_eq : ∀ id, primus < id → id < limit → ∀ j v, (positions pre id)[j]? = some v →
    ∀ k, k + c = revStart ids id + j → s.buffer k = v

theorem revToken_inv {limit c x : ℕ} {file pre suf : List ℕ} {s : RevPass}
    (hids : ids = pre ++ x :: suf) (h : PassInv ids primus limit c file pre s) :
    PassInv ids primus limit c file (pre ++ [x]) (revToken primus limit s (x, pre.length)) := by
  have hother : ∀ id, x ≠ id → positions (pre ++ [x]) id = positions pre id := by
    intro id hne
    rw [positions_snoc, if_neg hne, append_nil]
  have hself : positions (pre ++ [x]) x = positions pre x ++ [pre.length] := by
    rw [positions_snoc, if_pos rfl]
  have hcount : ∀ id, (positions pre id).length ≤ ids.count id := by
    intro id
    rw [positions_length, hids, count_append]
    omega
  have hcountx : (positions pre x).length < ids.count x := by
    rw [positions_length, hids, count_append, count_cons_self]
    omega
  unfold revToken
  by_cases hx : x = primus
  · subst hx
    rw [if_pos rfl]
    refine ⟨by rw [hself, ← append_assoc, ← h.file_eq], ?_, ?_⟩
    · intro id h1 h2
      rw [hother id (by omega)]
      exact h.ptab_eq id h1 h2
    · intro id h1 h2
      rw [hother id (by omega)]
      exact h.buffer_eq id h1 h2
  · rw [if_neg hx]
    by_cases hin : primus < x ∧ x < limit
    · rw [if_pos hin]
      refine ⟨by rw [hother primus hx]; exact h.file_eq, ?_, ?_⟩
      · intro id h1 h2
        have hp := h.ptab_eq id h1 h2
        by_cases hid : x = id
        · subst hid
          rw [hself, length_append, length_singleton]
          simp only [update_self]
          omega
        · rw [hother id hid]
          simp only [update_of_ne (Ne.symm hid)]
          exact hp
      · intro id h1 h2 j v hv k hk
        have hpx := h.ptab_eq x hin.1 hin.2
        have hold : (positions pre id)[j]? = some v → s.buffer k = v :=
          fun hv => h.buffer_eq id h1 h2 j v hv k hk
        by_cases hkx : k = s.ptab x
        · -- the cell written now belongs to `x` and was still free
          have hid : x = id := by
            by_contra hne
            rw [hother id hne] at hv
            have hj : j < (positions pre id).length := (List.getElem?_eq_some_iff.mp hv).1
            have hs1 := revStart_succ ids x
            have hs2 := revStart_succ ids id
            have hcid := hcount id
            rcases Nat.lt_or_gt_of_ne hne with hlt | hlt
            · have := revStart_mono ids (show x + 1 ≤ id from hlt)
              omega
            · have := revStart_mono ids (show id + 1 ≤ x from hlt)
              omega
          subst hid
          have hj : j = (positions pre x).length := by omega
          rw [hself, hj, getElem?_concat_length, Option.some.injEq] at hv
          simp only [hkx, update_self]
          exact hv
        · simp only [update_of_ne hkx]
          by_cases hid : x = id
          · subst hid
            rw [hself] at hv
            have hj : j ≠ (positions pre x).length := by omega
            have hjlt : j < (positions pre x).length := by
              have := (List.getElem?_eq_some_iff.mp hv).1
              rw [length_append, length_singleton] at this
              omega
            rw [getElem?_append_left hjlt] at hv
            exact hold hv
          · rw [hother id hid] at hv
            exact hold hv
    · rw [if_neg hin]
      refine ⟨by rw [hother primus hx]; exact h.file_eq, ?_, ?_⟩
      · intro id h1 h2
        rw [hother id (by omega)]
        exact h.ptab_eq id h1 h2
      · intro id h1 h2
        rw [hother id (by omega)]
        exact h.buffer_eq id h1 h2

theorem foldl_revToken_inv (ids : List ℕ) (primus limit : ℕ) {c : ℕ} {file : List ℕ} {s : RevPass}
    (h : PassInv ids primus limit c file [] s) :
    PassInv ids primus limit c file ids (ids.zipIdx.foldl (revToken primus limit) s) := by
  suffices hpre : ∀ pre suf, ids = pre ++ suf →
      PassInv ids primus limit c file pre (pre.zipIdx.foldl (revToken primus limit) s) by
    exact hpre ids [] (by simp)
  intro pre
  induction pre using reverseRecOn with
  | nil => intro _ _; exact h
  | append_singleton pre x ih =>
    intro suf hids
    rw [append_assoc] at hids
    rw [zipIdx_append, foldl_append]
    simpa using revToken_inv hids (ih _ hids)

theorem checkPtab_true {limit c : ℕ} {ptab : ℕ → ℕ} (hc : c = revStart ids (primus + 1)) (hlex : limit ≤ lexsize)
    (hp : ∀ id, primus < id → id < limit → ptab id + c = revStart ids (id + 1)) :
    checkPtab (creatFreqs ids lexsize) ptab primus limit = true := by
  have hfold : ∀ n, primus + 1 + n ≤ limit → ∃ ptr, ptr + c = revStart ids (primus + 1 + n) ∧
      (range' (primus + 1) n).foldl
        (fun (p : ℕ × Bool) id => (p.1 + (creatFreqs ids lexsize).getD id 0,
          p.2 && p.1 + (creatFreqs ids lexsize).getD id 0 == ptab id)) (0, true) = (ptr, true) := by
    intro n
    induction n with
    | zero => intro _; exact ⟨0, by rw [hc]; simp, rfl⟩
    | succ n ih =>
      intro hn
      obtain ⟨ptr, hptr, heq⟩ := ih (by omega)
      have hf : (creatFreqs ids lexsize).getD (primus + 1 + n) 0 = ids.count (primus + 1 + n) := by
        rw [getD_eq_getElem?_getD, freqs_getElem? (by omega), Option.getD_some]
      have hid := hp (primus + 1 + n) (by omega) (by omega)
      have hs := revStart_succ ids (primus + 1 + n)
      refine ⟨ptr + ids.count (primus + 1 + n), by rw [← Nat.add_assoc, hs]; omega, ?_⟩
      rw [range'_concat, foldl_append, heq]
      simp only [Nat.one_mul, foldl_cons, foldl_nil, hf, Bool.true_and, Prod.mk.injEq, true_and,
        beq_iff_eq]
      omega
  unfold checkPtab
  by_cases h : primus + 1 ≤ limit
  · obtain ⟨ptr, -, heq⟩ := hfold (limit - (primus + 1)) (by omega)
    rw [heq]
  · rw [show limit - (primus + 1) = 0 by omega]
    rfl

/-- The filled buffer holds the positions of the IDs of the pass, one ID after the other. -/
theorem buffer_map {limit c : ℕ} {buffer : ℕ → ℕ} (hc : c = revStart ids (primus + 1))
    (hbuf : ∀ id, primus < id → id < limit → ∀ j v, (positions ids id)[j]? = some v →
      ∀ k, k + c = revStart ids id + j → buffer k = v) (n : ℕ) (hn : primus + 1 + n ≤ limit) :
    (range (revStart ids (primus + 1 + n) - c)).map buffer =
      (range' (primus + 1) n).flatMap (positions ids) := by
  induction n with
  | zero => simp [hc]
  | succ n ih =>
    have hle := revStart_mono ids (show primus + 1 ≤ primus + 1 + n by omega)
    rw [← Nat.add_assoc, revStart_succ, show revStart ids (primus + 1 + n) + ids.count (primus + 1 + n) - c =
      revStart ids (primus + 1 + n) - c + ids.count (primus + 1 + n) by omega, range_add,
      map_append, ih (by omega), range'_concat, flatMap_append, flatMap_singleton, Nat.one_mul]
    congr 1
    refine ext_getElem (by simp [positions_length]) fun j h1 h2 => ?_
    simp only [getElem_map, getElem_range]
    exact hbuf _ (by omega) (by omega) j _ (getElem?_eq_getElem h2) _ (by omega)

theorem revPass_spec (ids : List ℕ) (bufsize : ℕ) (hp : primus < lexsize) :
    ∃ limit, primus < limit ∧ limit ≤ lexsize ∧
      revPass ids (creatFreqs ids lexsize) bufsize primus ((range primus).flatMap (positions ids)) =
        some ((range limit).flatMap (positions ids), limit) := by
  obtain ⟨limit, used, ptab, hfit, hle, hlex, hused, hptab⟩ := fitIds_spec (primus + 1)
    (revStart ids (primus + 1)) bufsize (creatFreqs ids lexsize).length (primus + 1) 0 (fun _ => 0) hp
    (Nat.zero_add _) (by omega)
  have hinv := foldl_revToken_inv ids primus limit
    (s := { file := (range primus).flatMap (positions ids), buffer := fun _ => 0, ptab := ptab })
    ⟨(append_nil _).symm, fun id h1 h2 => hptab id h1 h2, by simp [positions]⟩
  refine ⟨limit, hle, hlex, ?_⟩
  unfold revPass
  simp only [hfit]
  rw [if_pos]
  · rw [hinv.file_eq, show used = revStart ids (primus + 1 + (limit - (primus + 1))) - revStart ids (primus + 1) by
      rw [Nat.add_sub_cancel' hle]; omega, buffer_map rfl hinv.buffer_eq _ (by omega)]
    rw [range_split hle, flatMap_append, flatMap_cons, append_assoc]
  · exact checkPtab_true rfl hlex fun id h1 h2 => by
      rw [hinv.ptab_eq id h1 h2, positions_length, revStart_succ]

theorem revPasses_spec (ids : List ℕ) (lexsize bufsize fuel : ℕ) (hp : primus ≤ lexsize)
    (hfuel : lexsize - primus ≤ fuel) :
    revPasses ids (creatFreqs ids lexsize) bufsize fuel primus ((range primus).flatMap (positions ids)) =
      some ((range lexsize).flatMap (positions ids)) := by
  induction fuel generalizing primus with
  | zero => rw [show primus = lexsize by omega]; rfl
  | succ fuel ih =>
    unfold revPasses
    by_cases h : primus < lexsize
    · obtain ⟨limit, hlt, hle, hpass⟩ := revPass_spec ids bufsize h
      rw [if_pos (by simpa [creatFreqs_eq] using h), hpass]
      exact ih hle (by omega)
    · rw [if_neg (by simpa [creatFreqs_eq] using h), show primus = lexsize by omega]

end Pass

/-- Whatever the memory limit, the reversed corpus lists the positions ID by ID. -/
theorem creatRevCorpus_eq (memoryLimit : ℕ) {ids : List ℕ} {lexsize : ℕ} (h : ∀ id ∈ ids, id < lexsize) :
    creatRevCorpus memoryLimit ids (creatFreqs ids lexsize) =
      some ((range lexsize).flatMap (positions ids)) := by
  have hpass := revPasses_spec ids lexsize (revBufsize memoryLimit ids.length)
    (creatFreqs ids lexsize).length (Nat.zero_le _) (by simp [creatFreqs_eq])
  rw [range_zero, flatMap_nil] at hpass
  unfold creatRevCorpus
  rw [hpass]
  simp only [Option.bind_eq_bind, Option.bind_some]
  exact if_pos (revStart_eq_length h)

/-- What follows the start of `k` in the reversed corpus begins with the positions of `k`. -/
theorem revCorpus_drop (ids : List ℕ) {lexsize k : ℕ} (hk : k < lexsize) :
    ∃ tl, ((range lexsize).flatMap (positions ids)).drop (revStart ids k) = positions ids k ++ tl := by
  rw [range_split hk, flatMap_append, flatMap_cons, revStart, drop_left]
  exact ⟨_, rfl⟩

/-- The file does not depend on the size of the buffer, nor on the memory limit it comes
from: it is the concatenation of the position lists, and the index cuts it into them. -/
theorem revCorpus_independent_of_buffer (ids : List ℕ) (lexsize : ℕ) (h : ∀ id ∈ ids, id < lexsize) :
    ∃ rev, rev = (range lexsize).flatMap (positions ids) ∧
      (∀ bufsize, revPasses ids (creatFreqs ids lexsize) bufsize lexsize 0 [] = some rev) ∧
      (∀ memoryLimit, creatRevCorpus memoryLimit ids (creatFreqs ids lexsize) = some rev) ∧
      ∀ k < lexsize, ∃ start freq, (creatRevCorpusIdx (creatFreqs ids lexsize))[k]? = some start ∧
        (creatFreqs ids lexsize)[k]? = some freq ∧ (rev.drop start).take freq = positions ids k ∧
        (positions ids k).Pairwise (· < ·) ∧
        ∀ cpos, cpos ∈ positions ids k ↔ ids[cpos]? = some k := by
  refine ⟨_, rfl, ?_, fun memoryLimit => creatRevCorpus_eq memoryLimit h, ?_⟩
  · intro bufsize
    have hpass := revPasses_spec ids lexsize bufsize lexsize (Nat.zero_le _) (by omega)
    rwa [range_zero, flatMap_nil] at hpass
  · intro k hk
    obtain ⟨tl, htl⟩ := revCorpus_drop ids hk
    refine ⟨revStart ids k, ids.count k, by simp [creatRevCorpusIdx_eq, hk], freqs_getElem? hk, ?_,
      positions_sorted ids k, ?_⟩
    · rw [htl, ← positions_length, take_left]
    · intro cpos
      simp only [positions, mem_filter, mem_range, decide_eq_true_eq, and_iff_right_iff_imp]
      exact fun hc => (List.getElem?_eq_some_iff.mp hc).1

/-- Three types, of which the last two share a buffer of three cells. -/
theorem revCorpus_independent_of_buffer_three :
    ∃ rev, rev = [0, 3, 1, 4, 2] ∧ revPasses [0, 1, 2, 0, 1] (creatFreqs [0, 1, 2, 0, 1] 3) 3 3 0 [] = some rev := by
  obtain ⟨rev, hrev, hbuf, -⟩ := revCorpus_independent_of_buffer [0, 1, 2, 0, 1] 3 (by decide)
  exact ⟨rev, hrev, hbuf 3⟩

end CWB
