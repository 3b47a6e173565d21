import CWB.Library.Anchored
import CWB.Library.JumpSearch
import CWB.Proofs.RegoptReaders

/-! The search of the regular expression optimiser: with the table of `make_jump_table` no
occurrence of a grain is passed over, and every byte that is read belongs to the haystack. -/

namespace CWB.Regopt

open Option List JumpSearch

/-- The grains of an optimised `CL_Regex`: not empty, of one length, with their jump table. -/
structure ClRegex.Optimised (rx : ClRegex) : Prop where
  length_eq : ∀ g ∈ rx.grain, g.length = rx.grainLen
  grainLen_pos : 0 < rx.grainLen
  table_eq : rx.jumptable = makeJumpTable rx.grain rx.grainLen

/-! The jump table. -/

theorem shortestJump_eq (ch : UInt8) {g : List UInt8} {j jump : ℕ} (h : jump ≤ j + g.length) :
    shortestJump ch g j jump = min jump (j + g.idxOf ch) := by
  induction g generalizing j with
  | nil => simpa [shortestJump] using h
  | cons c g ih =>
    rw [shortestJump]
    by_cases hc : c = ch
    · rw [if_pos hc, hc, idxOf_cons_self]
      split_ifs <;> omega
    · rw [if_neg hc, ih (by rw [length_cons] at h; omega), idxOf_cons_ne _ hc]
      congr 1
      omega

variable {grain : List (List UInt8)}

theorem foldl_shortestJump_le (ch : UInt8) {len jump : ℕ} (h : ∀ g ∈ grain, g.length = len) (hjump : jump ≤ len) :
    grain.foldl (fun jump g => shortestJump ch g.reverse 0 jump) jump ≤ jump ∧
    ∀ g ∈ grain, grain.foldl (fun jump g => shortestJump ch g.reverse 0 jump) jump ≤ distance g ch := by
  induction grain generalizing jump with
  | nil => simp
  | cons g grain ih =>
    have hg : shortestJump ch g.reverse 0 jump = min jump (distance g ch) := by
      rw [shortestJump_eq ch (by rw [length_reverse, h g (by simp)]; omega), Nat.zero_add, distance]
    obtain ⟨hle, hgrain⟩ := ih (fun g' hg' => h g' (by simp [hg'])) (show min jump (distance g ch) ≤ len by omega)
    rw [foldl_cons, hg]
    refine ⟨by omega, fun g' hg' => ?_⟩
    rcases mem_cons.mp hg' with rfl | hg'
    · omega
    · exact hgrain g' hg'

variable {rx : ClRegex} {haystack : List UInt8}

/-- No jump is longer than the distance of the byte in any grain. -/
theorem ClRegex.Optimised.jump_le (h : rx.Optimised) (ch : UInt8) {g : List UInt8} (hg : g ∈ rx.grain) :
    rx.jumptable ch ≤ distance g ch := by
  rw [h.table_eq, makeJumpTable]
  split_ifs
  · exact Nat.zero_le _
  · exact (foldl_shortestJump_le ch h.length_eq le_rfl).2 g hg

/-! The comparison with the grains. -/

theorem grainAt_eq (g : List UInt8) {i : ℕ} (h : i + g.length ≤ haystack.length) :
    ∃ r, grainAt haystack g i = some r ∧ (r = true ↔ Occurs haystack g i) := by
  induction g generalizing i with
  | nil => exact ⟨true, rfl, by simp [Occurs]⟩
  | cons c g ih =>
    rw [length_cons] at h
    have hi : i < haystack.length := by omega
    simp only [grainAt, getElem?_eq_getElem hi, bind_eq_bind, bind_some]
    by_cases hc : c = haystack[i]
    · obtain ⟨r, hr, hiff⟩ := ih (show i + 1 + g.length ≤ haystack.length by omega)
      refine ⟨r, by rw [if_pos hc, hr], hiff.trans ?_⟩
      rw [Occurs, Occurs, drop_eq_getElem_cons hi, hc, prefix_cons_inj]
    · refine ⟨false, if_neg hc, ?_⟩
      rw [Occurs, drop_eq_getElem_cons hi, cons_prefix_cons]
      simp [hc]

theorem anyGrainAt_eq (grain : List (List UInt8)) {i : ℕ} (h : ∀ g ∈ grain, i + g.length ≤ haystack.length) :
    ∃ r, anyGrainAt haystack i grain = some r ∧ (r = true ↔ ∃ g ∈ grain, Occurs haystack g i) := by
  induction grain with
  | nil => exact ⟨false, rfl, by simp⟩
  | cons g grain ih =>
    obtain ⟨b, hb, hbiff⟩ := grainAt_eq g (h g (by simp))
    simp only [anyGrainAt, hb, bind_eq_bind, bind_some]
    cases b with
    | true => exact ⟨true, rfl, by simp [hbiff.mp rfl]⟩
    | false =>
      obtain ⟨r, hr, hiff⟩ := ih fun g' hg' => h g' (by simp [hg'])
      have hno : ¬Occurs haystack g i := fun hocc => by simpa using hbiff.mpr hocc
      exact ⟨r, hr, by simp [hiff, hno]⟩

/-! One round. -/

/-- A round goes on at least one byte; no grain occurs at the offsets that it leaves out, and the
match is that of the offset it leaves. -/
theorem searchLoop_round (h : rx.Optimised) {maxI : ℤ} (hmax : maxI = haystack.length - rx.grainLen) {i : ℕ} (hi : i ≤ maxI)
    (fuel : ℕ) (m : Bool) :
    ∃ (j : ℕ) (r : Bool), i < j ∧ (r = true ↔ ∃ g ∈ rx.grain, Occurs haystack g i) ∧
      (∀ k, i < k → k < j → ¬∃ g ∈ rx.grain, Occurs haystack g k) ∧
      searchLoop rx haystack maxI (fuel + 1) i m =
        if rx.anchorStart then some (m || r) else searchLoop rx haystack maxI fuel j (m || r) := by
  have hpos := h.grainLen_pos
  have hread : i + rx.grainLen - 1 < haystack.length := by omega
  set ch := haystack[i + rx.grainLen - 1] with hch
  have hget : haystack[i + rx.grainLen - 1]? = some ch := getElem?_eq_getElem hread
  rw [searchLoop, if_pos hi]
  simp only [hget, bind_eq_bind, bind_some]
  by_cases hjump : rx.jumptable ch > 0
  · have hskip : ∀ d < rx.jumptable ch, ¬∃ g ∈ rx.grain, Occurs haystack g (i + d) := by
      rintro d hd ⟨g, hg, hocc⟩
      refine not_occurs_of_lt_distance ?_ (hd.trans_le (h.jump_le ch hg)) hocc
      rw [h.length_eq g hg]
      exact hget
    refine ⟨i + rx.jumptable ch, false, by omega, ?_, fun k hik hkj => ?_, ?_⟩
    · simpa using hskip 0 hjump
    · have := hskip (k - i) (by omega)
      rwa [Nat.add_sub_cancel' hik.le] at this
    · simp only [if_pos hjump, Bool.or_false]
  · obtain ⟨r, hr, hiff⟩ := anyGrainAt_eq rx.grain fun g hg => show i + g.length ≤ haystack.length by
      rw [h.length_eq g hg]
      omega
    refine ⟨i + 1, r, by omega, hiff, fun k hik hkj => by omega, ?_⟩
    simp only [if_neg hjump, hr, bind_some]

/-- Without a start anchor the loop sees every occurrence from `i` on. -/
theorem searchLoop_eq (h : rx.Optimised) (hstart : rx.anchorStart = false) {maxI : ℤ}
    (hmax : maxI = haystack.length - rx.grainLen) (fuel : ℕ) {i : ℕ} (hfuel : maxI < i + fuel) (m : Bool) :
    ∃ r, searchLoop rx haystack maxI fuel i m = some r ∧
      (r = true ↔ m = true ∨ ∃ k, i ≤ k ∧ ∃ g ∈ rx.grain, Occurs haystack g k) := by
  have hend : ∀ i : ℕ, ¬i ≤ maxI → ¬∃ k, i ≤ k ∧ ∃ g ∈ rx.grain, Occurs haystack g k := by
    rintro i hi ⟨k, hik, g, hg, hocc⟩
    have hlen := h.length_eq g hg
    have := hocc.add_length_le (length_pos_iff.mp (by rw [hlen]; exact h.grainLen_pos))
    omega
  induction fuel generalizing i m with
  | zero =>
    have hi : ¬(i : ℤ) ≤ maxI := by omega
    exact ⟨m, by rw [searchLoop, if_neg hi], by simp [hend i hi]⟩
  | succ fuel ih =>
    by_cases hi : (i : ℤ) ≤ maxI
    · obtain ⟨j, r, hij, hr, hskip, hloop⟩ := searchLoop_round h hmax hi fuel m
      obtain ⟨r', hr', hiff⟩ := ih (i := j) (m := m || r) (by omega)
      refine ⟨r', by rw [hloop, hstart, if_neg (by decide), hr'], ?_⟩
      rw [hiff, Bool.or_eq_true, hr]
      refine ⟨?_, ?_⟩
      · rintro ((hm | hocc) | ⟨k, hjk, hocc⟩)
        · exact .inl hm
        · exact .inr ⟨i, le_rfl, hocc⟩
        · exact .inr ⟨k, by omega, hocc⟩
      · rintro (hm | ⟨k, hik, hocc⟩)
        · exact .inl (.inl hm)
        · rcases hik.eq_or_lt with rfl | hlt
          · exact .inl (.inr hocc)
          · exact .inr ⟨k, not_lt.mp fun hkj => hskip k hlt hkj hocc, hocc⟩
    · exact ⟨m, by rw [searchLoop, if_neg hi], by simp [hend i hi]⟩

/-- With a start anchor only the offset at which the search begins is compared. -/
theorem searchLoop_anchored (h : rx.Optimised) (hstart : rx.anchorStart = true) {maxI : ℤ}
    (hmax : maxI = haystack.length - rx.grainLen) {i : ℕ} (hi : i ≤ maxI) (fuel : ℕ) :
    ∃ r, searchLoop rx haystack maxI (fuel + 1) i false = some r ∧ (r = true ↔ ∃ g ∈ rx.grain, Occurs haystack g i) := by
  obtain ⟨_, r, _, hr, _, hloop⟩ := searchLoop_round h hmax hi fuel false
  exact ⟨r, by rw [hloop, hstart, if_pos rfl, Bool.false_or], hr⟩

/-- What the search is for: a grain at the end if the regular expression is anchored there, else one at
the start if it is anchored there, else one anywhere. -/
def ClRegex.Hit (rx : ClRegex) (haystack : List UInt8) : Prop :=
  if rx.anchorEnd then ∃ g ∈ rx.grain, g <:+ haystack
  else if rx.anchorStart then ∃ g ∈ rx.grain, g <+: haystack
  else ∃ g ∈ rx.grain, g <:+: haystack

/-- A haystack shorter than the grains has none of them. -/
theorem not_hit_of_short (h : rx.Optimised) (hshort : haystack.length < rx.grainLen) : ¬rx.Hit haystack := by
  have hno : ∀ g ∈ rx.grain, ¬g.length ≤ haystack.length := fun g hg => by
    rw [h.length_eq g hg]
    omega
  unfold ClRegex.Hit
  split_ifs
  · exact fun ⟨g, hg, hsuf⟩ => hno g hg hsuf.length_le
  · exact fun ⟨g, hg, hpre⟩ => hno g hg hpre.length_le
  · exact fun ⟨g, hg, hin⟩ => hno g hg hin.length_le

theorem grainSearch_hits (h : rx.Optimised) (haystack : List UInt8) :
    ∃ r, grainSearch rx haystack haystack.length = some r ∧ (r = true ↔ rx.Hit haystack) := by
  unfold grainSearch
  by_cases hshort : haystack.length < rx.grainLen
  · refine ⟨false, ?_, by simp [not_hit_of_short h hshort]⟩
    simp only
    rw [searchLoop, if_neg (by split_ifs <;> omega)]
  have hmaxI : (haystack.length : ℤ) - rx.grainLen = haystack.length - rx.grainLen := rfl
  have hmax : ((haystack.length : ℤ) - rx.grainLen).toNat = haystack.length - rx.grainLen := by omega
  have hlast : ∀ g ∈ rx.grain, (Occurs haystack g (haystack.length - rx.grainLen) ↔ g <:+ haystack) := fun g hg => by
    rw [← h.length_eq g hg]
    exact occurs_last_iff (by rw [h.length_eq g hg]; omega)
  simp only [if_pos (show (haystack.length : ℤ) - rx.grainLen ≥ 0 by omega), hmax]
  unfold ClRegex.Hit
  cases hend : rx.anchorEnd with
  | true =>
    simp only [if_true]
    cases hstart : rx.anchorStart with
    | true =>
      obtain ⟨r, hr, hiff⟩ := searchLoop_anchored h hstart hmaxI (i := haystack.length - rx.grainLen) (by omega) haystack.length
      exact ⟨r, hr, hiff.trans (exists_congr fun g => and_congr_right fun hg => hlast g hg)⟩
    | false =>
      obtain ⟨r, hr, hiff⟩ := searchLoop_eq h hstart hmaxI (haystack.length + 1)
        (i := haystack.length - rx.grainLen) (by omega) false
      refine ⟨r, hr, hiff.trans ?_⟩
      simp only [Bool.false_eq_true, false_or]
      refine ⟨?_, fun ⟨g, hg, hsuf⟩ => ⟨_, le_rfl, g, hg, (hlast g hg).mpr hsuf⟩⟩
      rintro ⟨k, hk, g, hg, hocc⟩
      have hlen := h.length_eq g hg
      have hpos := h.grainLen_pos
      have hle := hocc.add_length_le (length_pos_iff.mp (by omega))
      rw [show k = haystack.length - rx.grainLen by omega] at hocc
      exact ⟨g, hg, (hlast g hg).mp hocc⟩
  | false =>
    simp only [Bool.false_eq_true, if_false]
    cases hstart : rx.anchorStart with
    | true =>
      obtain ⟨r, hr, hiff⟩ := searchLoop_anchored h hstart hmaxI (i := 0) (by omega) haystack.length
      exact ⟨r, hr, hiff.trans (exists_congr fun g => and_congr_right fun _ => occurs_zero_iff)⟩
    | false =>
      obtain ⟨r, hr, hiff⟩ := searchLoop_eq h hstart hmaxI (haystack.length + 1) (i := 0) (by omega) false
      refine ⟨r, hr, hiff.trans ?_⟩
      simp only [Bool.false_eq_true, false_or, if_false]
      refine ⟨fun ⟨k, _, g, hg, hocc⟩ => ⟨g, hg, exists_occurs_iff.mp ⟨k, hocc⟩⟩, fun ⟨g, hg, hin⟩ => ?_⟩
      obtain ⟨k, hocc⟩ := exists_occurs_iff.mpr hin
      exact ⟨k, Nat.zero_le k, g, hg, hocc⟩

/-- The search ends, reads no byte outside of the haystack and reports exactly the hits. -/
theorem grainSearch_eq (h : rx.Optimised) (haystack : List UInt8) :
    ∃ r, grainSearch rx haystack haystack.length = some r ∧ (r = true ↔ rx.Hit haystack) := grainSearch_hits h haystack

/-! The objects that `regopt_data_copy_to_regex_object` builds. -/

theorem foldl_copyGrain_length {len : ℕ} (cutPrefix : Bool) (h : ∀ g ∈ grain, len ≤ g.length)
    {s : CopyState} (hs : ∀ g ∈ s.grain, g.length = len) :
    ∀ g ∈ (grain.foldl (copyGrain len cutPrefix) s).grain, g.length = len := by
  induction grain generalizing s with
  | nil => exact hs
  | cons g grain ih =>
    rw [foldl_cons]
    refine ih (fun g' hg' => h g' (by simp [hg'])) ?_
    have hg := h g (by simp)
    intro g' hg'
    unfold copyGrain at hg'
    split_ifs at hg' with hlong hcut
    · simp only [mem_append, mem_singleton] at hg'
      rcases hg' with hg' | rfl
      · exact hs g' hg'
      · rw [length_drop]
        omega
    · simp only [mem_append, mem_singleton] at hg'
      rcases hg' with hg' | rfl
      · exact hs g' hg'
      · rw [length_take]
        omega
    · simp only [mem_append, mem_singleton] at hg'
      rcases hg' with hg' | rfl
      · exact hs g' hg'
      · omega

theorem foldl_min_length_le {α : Type*} (grain : List (List α)) (n : ℕ) :
    grain.foldl (fun len g => if g.length < len then g.length else len) n ≤ n ∧
    ∀ g ∈ grain, grain.foldl (fun len g => if g.length < len then g.length else len) n ≤ g.length := by
  induction grain generalizing n with
  | nil => simp
  | cons g grain ih =>
    obtain ⟨hle, hall⟩ := ih (if g.length < n then g.length else n)
    rw [foldl_cons]
    have hmin : (if g.length < n then g.length else n) ≤ g.length ∧ (if g.length < n then g.length else n) ≤ n := by
      split_ifs <;> omega
    refine ⟨hle.trans hmin.2, fun g' hg' => ?_⟩
    rcases mem_cons.mp hg' with rfl | hg'
    · exact hle.trans hmin.1
    · exact hall g' hg'

theorem foldl_min_length_pos {n : ℕ} (hn : 0 < n) (h : ∀ g ∈ grain, g ≠ []) :
    0 < grain.foldl (fun len g => if g.length < len then g.length else len) n := by
  induction grain generalizing n with
  | nil => exact hn
  | cons g grain ih =>
    have hg : 0 < g.length := length_pos_iff.mpr (h g (by simp))
    exact ih (show 0 < if g.length < n then g.length else n by split_ifs <;> omega) fun g' hg' => h g' (by simp [hg'])

/-- Whatever grains the analyser has found, the search works with grains of one length. -/
theorem regoptDataCopyToRegexObject_optimised (casefold : List UInt8 → List UInt8) (icase anchorStart anchorEnd : Bool)
    (h : ∀ g ∈ if icase then grain.map casefold else grain, g ≠ []) :
    (regoptDataCopyToRegexObject casefold icase grain anchorStart anchorEnd).Optimised := by
  have hpos := foldl_min_length_pos (show 0 < CL_MAX_LINE_LENGTH by decide) h
  exact ⟨foldl_copyGrain_length _ (foldl_min_length_le _ _).2 (by simp), hpos, rfl⟩

/-- Two grains of different lengths, the longer one cut at its start because of the end anchor. -/
theorem grainSearch_eq_cut :
    let rx := regoptDataCopyToRegexObject id false [[97, 98, 99], [120, 99]] false true
    ∃ r, grainSearch rx [98, 120, 99] 3 = some r ∧ (r = true ↔ rx.Hit [98, 120, 99]) :=
  grainSearch_eq (regoptDataCopyToRegexObject_optimised id false false true (by decide)) [98, 120, 99]

/-- With both anchors the start of the haystack is not checked. -/
theorem not_grainSearch_start :
    ¬∀ rx : ClRegex, rx.Optimised → ∀ haystack, grainSearch rx haystack haystack.length = some true ↔
      ∃ g ∈ rx.grain, g <:+: haystack ∧ (rx.anchorStart = true → g <+: haystack) ∧ (rx.anchorEnd = true → g <:+ haystack) := by
  intro hall
  have h := hall (regoptDataCopyToRegexObject id false [[97, 98, 99]] true true)
    (regoptDataCopyToRegexObject_optimised id false true true (by decide)) [120, 120, 97, 98, 99]
  obtain ⟨g, hg, -, hstart, -⟩ := h.mp (by decide)
  obtain rfl : g = [97, 98, 99] := by simpa [regoptDataCopyToRegexObject, copyGrain, CL_MAX_LINE_LENGTH] using hg
  exact absurd (hstart rfl) (by decide)

end CWB.Regopt

/-! The grains that the analyser finds: every string of the expression contains one of them, at its start
or end where they are anchored there. An end anchor can be trusted only if no literal with a quantifier
stands at the end of the expression or of an alternative. -/

namespace CWB.Regopt

open Anchored Pcre

variable {M : CharMeaning} {i j k r : List Char} {L L' : Language Char}

/-! ## Grains as languages -/

/-- The strings that a grain stands for. -/
def lits (M : CharMeaning) (g : List Char) : Language Char := (g.map (literal M)).prod

def anyGrain (M : CharMeaning) (G : List (List Char)) : Language Char := {s | ∃ g ∈ G, s ∈ lits M g}

theorem lits_append (g g' : List Char) : lits M (g ++ g') = lits M g * lits M g' := by
  rw [lits, List.map_append, List.prod_append]
  rfl

theorem lits_singleton (c : Char) : lits M [c] = literal M c := List.prod_singleton

theorem lits_cons (c : Char) (g : List Char) : lits M (c :: g) = literal M c * lits M g := List.prod_cons

theorem mem_lits {g s : List Char} : s ∈ lits M g ↔ List.Forall₂ M.same g s := by
  induction g generalizing s with
  | nil => rw [List.forall₂_nil_left_iff]; exact Language.mem_one s
  | cons c g ih =>
    rw [lits_cons, List.forall₂_cons_left_iff, Language.mem_mul]
    refine ⟨?_, ?_⟩
    · rintro ⟨_, ⟨d, hd, rfl⟩, t, ht, rfl⟩
      exact ⟨d, t, hd, ih.mp ht, rfl⟩
    · rintro ⟨d, t, hd, ht, rfl⟩
      exact ⟨[d], ⟨d, hd, rfl⟩, t, ih.mpr ht, rfl⟩

theorem lits_le_anyGrain {G : List (List Char)} {g : List Char} (hg : g ∈ G) : lits M g ≤ anyGrain M G := fun _ hs => ⟨g, hg, hs⟩

/-! ## Quantified literals at an end -/

/-- The grain that is read at `i` has no quantifier with an end behind it. -/
def PlainAt (i : List Char) : Prop :=
  ∀ k plus, (readLiterals i).1 ≠ [] → readKleene (readLiterals i).2 = some (k, plus) → ¬Closes k

/-- What is left at the places in `i` where an element or an alternative may begin. -/
inductive Within (M : CharMeaning) : List Char → List Char → Prop
  | here {i : List Char} : Within M i i
  | element {i j k : List Char} {L : Language Char} (h : Branch M i j L) (hk : Within M j k) : Within M i k
  | bar {i k : List Char} (hk : Within M i k) : Within M ('|' :: i) k

/-- No literal with a quantifier stands at an end, neither outside of groups nor in one that is not nested. -/
structure EndsPlain (M : CharMeaning) (i : List Char) : Prop where
  outside : ∀ j, Within M i j → PlainAt j
  group : ∀ j body, Within M i j → openGroup j = some body → ∀ k, Within M body k → PlainAt k

theorem EndsPlain.behind (h : EndsPlain M i) (hb : Branch M i j L) : EndsPlain M j :=
  ⟨fun k hk => h.outside k (.element hb hk), fun k body hk => h.group k body (.element hb hk)⟩

theorem Within.suffix (h : Within M i j) : j <:+ i := by
  induction h with
  | here => exact List.suffix_rfl
  | element hb _ ih => exact ih.trans hb.suffix
  | bar _ ih => exact ih.trans (List.suffix_cons _ _)

/-- An expression without quantified literals. -/
theorem endsPlain_of_suffix (h : ∀ j, j <:+ i → readKleene (readLiterals j).2 = none) : EndsPlain M i := by
  have hplain : ∀ j, j <:+ i → PlainAt j := by
    intro j hj k plus _ hk
    simp [h j hj] at hk
  exact ⟨fun j hj => hplain j hj.suffix, fun j body hj hbody k hk =>
    hplain k (hk.suffix.trans ((openGroup_suffix hbody).trans hj.suffix))⟩

/-! ## Literal characters and grains -/

theorem readLiterals_cases (i : List Char) :
    readLiterals i = ([], i) ∨
    ∃ c j, readLiterals i = (c :: (readLiterals j).1, (readLiterals j).2) ∧ (∀ M, Atom M i j (literal M c)) ∧ ¬Stuck i := by
  have heq := readLiterals.eq_def i
  split at heq
  · next c point =>
    split_ifs at heq with hc
    · refine .inr ⟨c, point, heq, fun M => .quoted (not_isAlphanum_of_punct hc), ?_⟩
      simp [Stuck]
    · exact .inl heq
  · next c point _ =>
    split_ifs at heq with hc
    · have hspecial := not_special_of_safe hc
      exact .inr ⟨c, point, heq, fun M => .char hspecial, not_stuck_of_not_special hspecial point⟩
    · exact .inl heq
  · exact .inl heq

/-- The characters of a grain are elements; only the last one can have a quantifier. -/
theorem branch_of_readLiterals {g : List Char} {c : Char} (h : readLiterals i = (g ++ [c], j)) :
    ∃ k, Branch M i k (lits M g) ∧ Atom M k j (literal M c) ∧ ¬Stuck i := by
  induction g generalizing i with
  | nil =>
    rcases readLiterals_cases i with hnil | ⟨d, k, heq, hatom, hi⟩
    · simp [hnil] at h
    · obtain ⟨hd, hj⟩ := Prod.mk.inj (heq.symm.trans h)
      obtain ⟨rfl, hrest⟩ := List.cons.inj hd
      rcases readLiterals_cases k with hnil | ⟨d', k', heq', -⟩
      · obtain rfl : k = j := by rw [← hj, hnil]
        exact ⟨i, .nil, hatom M, hi⟩
      · simp [heq'] at hrest
  | cons d g ih =>
    rcases readLiterals_cases i with hnil | ⟨d', k, heq, hatom, hi⟩
    · simp [hnil] at h
    · obtain ⟨hd, hj⟩ := Prod.mk.inj (heq.symm.trans h)
      obtain ⟨rfl, hrest⟩ := List.cons.inj hd
      obtain ⟨l, hb, hlast, hk⟩ := ih (i := k) (Prod.ext hrest hj)
      refine ⟨l, ?_, hlast, hi⟩
      rw [lits_cons]
      exact branch_append (branch_single_none (hatom M) (quantifier_of_not_stuck hk)) hb

variable {grain : List Char}

theorem readGrain_cases (h : readGrain i = some (r, grain)) :
    ∃ g c j, readLiterals i = (g ++ [c], j) ∧
      (readKleene j = none ∧ r = j ∧ grain = g ++ [c] ∨ readKleene j = some (r, true) ∧ grain = g ++ [c] ∨
        readKleene j = some (r, false) ∧ grain = g) := by
  unfold readGrain at h
  generalize hread : readLiterals i = lit at h
  obtain ⟨lit, j⟩ := lit
  simp only at h
  rcases List.eq_nil_or_concat' lit with rfl | ⟨g, c, rfl⟩
  · simp at h
  · refine ⟨g, c, j, rfl, ?_⟩
    rw [if_neg (by simp)] at h
    split at h
    · next rest plus hk =>
      cases plus with
      | true =>
        simp only [if_true] at h
        rw [if_neg (by simp)] at h
        obtain ⟨rfl, rfl⟩ := Prod.mk.inj (Option.some.inj h)
        exact .inr (.inl ⟨hk, rfl⟩)
      | false =>
        simp only [Bool.false_eq_true, if_false, List.dropLast_concat] at h
        split_ifs at h
        obtain ⟨rfl, rfl⟩ := Prod.mk.inj (Option.some.inj h)
        exact .inr (.inr ⟨hk, rfl⟩)
    · next hk =>
      obtain ⟨rfl, rfl⟩ := Prod.mk.inj (Option.some.inj h)
      exact .inl ⟨hk, rfl, rfl⟩

/-- A grain stands at the start of what is read for it, and at its end if it has no quantifier. -/
theorem branch_of_readGrain (h : readGrain i = some (r, grain)) :
    Stuck r ∨ ∃ L e, Branch M i r L ∧ L ≤ framed (lits M grain) true e ∧ (PlainAt i → Closes r → e = true) := by
  obtain ⟨g, c, j, hread, hcases⟩ := readGrain_cases h
  obtain ⟨k, hb, hatom, -⟩ := branch_of_readLiterals (M := M) hread
  have hplain : ∀ plus, readKleene j = some (r, plus) → PlainAt i → Closes r → False := by
    intro plus hk hi hr
    refine hi r plus ?_ ?_ hr
    · simp [hread]
    · rw [hread]
      exact hk
  rcases hcases with ⟨hk, rfl, rfl⟩ | ⟨hk, rfl⟩ | ⟨hk, rfl⟩
  · refine .inr ⟨_, true, branch_append hb (branch_single_none hatom (quantifier_of_readKleene hk)), ?_, fun _ _ => rfl⟩
    rw [lits_append, lits_singleton]
    exact le_framed _ true true
  · refine (branch_of_readKleene hatom hk).imp_right fun hbranch => ?_
    obtain ⟨L', hL', hle⟩ := hbranch
    refine ⟨_, false, branch_append hb hL', ?_, fun hi hr => (hplain _ hk hi hr).elim⟩
    rw [lits_append, lits_singleton]
    calc lits M g * L' ≤ lits M g * (literal M c * ⊤) := mul_le_mul' le_rfl (hle rfl)
      _ = framed (lits M g * literal M c) true false := by rw [framed, margin, if_pos rfl, one_mul, mul_assoc]; rfl
  · refine (branch_of_readKleene hatom hk).imp_right fun hbranch => ?_
    obtain ⟨L', hL', -⟩ := hbranch
    refine ⟨_, false, branch_append hb hL', ?_, fun hi hr => (hplain _ hk hi hr).elim⟩
    calc lits M grain * L' ≤ framed (lits M grain) true true * L' := mul_le_mul' (le_framed _ _ _) le_rfl
      _ ≤ framed (lits M grain) true false := framed_mul_le _ _ _ _

theorem Stuck.readGrain (h : Stuck i) : Regopt.readGrain i = none := by
  cases hread : Regopt.readGrain i with
  | none => rfl
  | some p =>
    obtain ⟨g, c, j, hlit, -⟩ := readGrain_cases (show Regopt.readGrain i = some (p.1, p.2) from hread)
    obtain ⟨-, -, -, hi⟩ := branch_of_readLiterals (M := ⟨fun _ _ => False, 0, fun _ => 0, fun _ _ => 0⟩) hlit
    exact absurd h hi

/-! ## The alternatives of a disjunction -/

variable {fuel : ℕ}

theorem findGrain_alignStart {a a' : Bool} (h : findGrain fuel i a = some (r, grain, a')) :
    a' = true → a = true := by
  induction fuel generalizing i a with
  | zero => simp [findGrain] at h
  | succ fuel ih =>
    rw [findGrain] at h
    split at h
    · simp only [Option.some.injEq, Prod.mk.injEq] at h
      obtain ⟨-, -, rfl⟩ := h
      exact id
    · split at h
      · exact fun ha' => absurd (ih h ha') (by decide)
      · simp at h

/-- The first grain of an alternative, with what is skipped in front of it. -/
theorem branch_of_findGrain {a a' : Bool} (hne : NoEmptySet i) (h : findGrain fuel i a = some (r, grain, a')) :
    Stuck r ∨ ∃ L e, Branch M i r L ∧ L ≤ framed (lits M grain) a' e ∧
      ((∀ j, Within M i j → PlainAt j) → Closes r → e = true) := by
  induction fuel generalizing i a with
  | zero => simp [findGrain] at h
  | succ fuel ih =>
    rw [findGrain] at h
    split at h
    · next p2 g hread =>
      simp only [Option.some.injEq, Prod.mk.injEq] at h
      obtain ⟨rfl, rfl, rfl⟩ := h
      refine (branch_of_readGrain (M := M) hread).imp_right fun ⟨L, e, hb, hle, he⟩ => ?_
      exact ⟨L, e, hb, hle.trans (framed_mono le_rfl (fun _ => rfl) id), fun hi => he (hi i .here)⟩
    · split at h
      · next p2 hwild =>
        have ha' : a' = false := by
          by_contra htrue
          exact absurd (findGrain_alignStart h (by simpa using htrue)) (by decide)
        rcases branch_of_readWildcard (M := M) hne hwild with hstuck | ⟨L₀, hb₀⟩
        · cases fuel with
          | zero => simp [findGrain] at h
          | succ fuel => simp [findGrain, hstuck.readGrain, hstuck.readWildcard] at h
        · refine (ih (hne.of_suffix hb₀.suffix) h).imp_right fun ⟨L, e, hb, hle, he⟩ => ?_
          refine ⟨_, e, branch_append hb₀ hb, ?_, fun hi => he fun j hj => hi j (.element hb₀ hj)⟩
          rw [ha'] at hle ⊢
          exact (mul_le_mul' le_rfl hle).trans (mul_framed_le _ _ _ _)
      · simp at h

theorem Stuck.skipAlternative (h : Stuck i) (fuel : ℕ) (e : Bool) : Regopt.skipAlternative fuel i e = (i, e) := by
  cases fuel with
  | zero => rfl
  | succ fuel =>
    rw [Regopt.skipAlternative, h.readWildcard]
    split_ifs <;> rfl

/-- What is skipped behind the grain of an alternative. -/
theorem branch_of_skipAlternative (fuel : ℕ) (hne : NoEmptySet i) (e : Bool) :
    skipAlternative fuel i e = (i, e) ∨
    (Stuck (skipAlternative fuel i e).1 ∨ ∃ L, Branch M i (skipAlternative fuel i e).1 L) ∧ (skipAlternative fuel i e).2 = false := by
  induction fuel generalizing i e with
  | zero => exact .inl rfl
  | succ fuel ih =>
    rw [skipAlternative]
    split_ifs with hend
    · exact .inl rfl
    · split
      · next p2 hwild =>
        refine .inr ?_
        rcases branch_of_readWildcard (M := M) hne hwild with hstuck | ⟨L₀, hb₀⟩
        · rw [hstuck.skipAlternative]
          exact ⟨.inl hstuck, rfl⟩
        · rcases ih (hne.of_suffix hb₀.suffix) false with hsame | ⟨hrest, hfalse⟩
          · rw [hsame]
            exact ⟨.inr ⟨_, hb₀⟩, rfl⟩
          · exact ⟨hrest.imp_right fun ⟨L, hb⟩ => ⟨_, branch_append hb₀ hb⟩, hfalse⟩
      · exact .inl rfl

/-- An alternative with its grain, up to its end. -/
theorem branch_of_alternative {n m : ℕ} {a a' e e' : Bool} {p2 : List Char} (hne : NoEmptySet i)
    (hfind : findGrain n i a = some (p2, grain, a')) (hskip : skipAlternative m p2 e = (k, e')) (hk : Closes k) (trust : Bool)
    (htrust : trust = true → ∀ j, Within M i j → PlainAt j) :
    (e' = true → e = true) ∧ ∃ L, Branch M i k L ∧ L ≤ framed (lits M grain) a' (e' && trust) := by
  have hstuck : ¬Stuck k := fun hstuck => by
    obtain ⟨hbar, hparen, hnil⟩ := hstuck.head_ne
    rcases hk with hk | hk | hk
    · exact hnil hk
    · exact hparen hk
    · exact hbar hk
  rcases branch_of_findGrain (M := M) hne hfind with hp2 | ⟨L, plain, hb, hle, hplain⟩
  · rw [hp2.skipAlternative] at hskip
    obtain ⟨rfl, -⟩ := Prod.mk.inj hskip
    exact absurd hp2 hstuck
  · rcases branch_of_skipAlternative (M := M) m (hne.of_suffix hb.suffix) e with hsame | ⟨hrest, hfalse⟩
    · -- nothing has been skipped, so that the grain ends the alternative unless it has a quantifier
      obtain ⟨rfl, rfl⟩ := Prod.mk.inj (hsame.symm.trans hskip)
      refine ⟨id, L, hb, hle.trans (framed_mono le_rfl id fun hend => ?_)⟩
      exact hplain (htrust (Bool.and_eq_true_iff.mp hend).2) hk
    · rw [hskip] at hrest hfalse
      obtain rfl : e' = false := hfalse
      obtain ⟨L', hb'⟩ := hrest.resolve_left hstuck
      refine ⟨by simp, _, branch_append hb hb', ?_⟩
      calc L * L' ≤ framed (lits M grain) a' plain * L' := mul_le_mul' hle le_rfl
        _ ≤ framed (lits M grain) a' (false && trust) := framed_mul_le _ _ _ _

/-- The alternatives of a disjunction, each with a grain, up to the end of the disjunction. -/
theorem alternation_of_readAlternatives {g g' : GrainSet} (hne : NoEmptySet i)
    (h : readAlternatives fuel i g = some (r, g')) (hr : ClosesAll r) (trust : Bool)
    (htrust : trust = true → ∀ j, Within M i j → PlainAt j) :
    g.grain ⊆ g'.grain ∧ (g'.alignStart = true → g.alignStart = true) ∧ (g'.alignEnd = true → g.alignEnd = true) ∧
    ∃ L, Alternation M i r L ∧ L ≤ framed (anyGrain M g'.grain) g'.alignStart (g'.alignEnd && trust) := by
  induction fuel generalizing i g with
  | zero => simp [readAlternatives] at h
  | succ fuel ih =>
    rw [readAlternatives] at h
    split at h
    · simp at h
    · next p2 grain alignStart hfind =>
      split_ifs at h with hmax
      generalize hskip : skipAlternative p2.length p2 g.alignEnd = skipped at h
      obtain ⟨k, alignEnd⟩ := skipped
      simp only at h
      split at h
      · next point =>
        obtain ⟨hend, L, hb, hle⟩ := branch_of_alternative hne hfind hskip (.inr (.inr rfl)) trust htrust
        have hne' : NoEmptySet point := (hne.of_suffix hb.suffix).of_suffix (List.suffix_cons _ _)
        obtain ⟨hsub, hstart', hend', L', hb', hle'⟩ := ih hne' h fun ht j hj => htrust ht j (.element hb (.bar hj))
        have hg : grain ∈ g'.grain := hsub (by simp)
        refine ⟨fun x hx => hsub (by simp [hx]), fun hs => findGrain_alignStart hfind (hstart' hs), fun he => hend (hend' he),
          _, .bar hb hb', ?_⟩
        refine add_le_iff.mpr ⟨hle.trans (framed_mono (lits_le_anyGrain hg) hstart' ?_), hle'⟩
        exact fun he => Bool.and_eq_true_iff.mpr ⟨hend' (Bool.and_eq_true_iff.mp he).1, (Bool.and_eq_true_iff.mp he).2⟩
      · simp only [Option.some.injEq, Prod.mk.injEq] at h
        obtain ⟨rfl, rfl⟩ := h
        obtain ⟨hend, L, hb, hle⟩ := branch_of_alternative hne hfind hskip hr.closes trust htrust
        exact ⟨by simp, findGrain_alignStart hfind, hend, L, .last hb, hle.trans (framed_mono (lits_le_anyGrain (by simp)) id id)⟩

/-- A disjunction in parentheses is a group. -/
theorem atom_of_readDisjunction {g : GrainSet} (hne : NoEmptySet i) (h : readDisjunction i false = some (r, g)) (trust : Bool)
    (htrust : trust = true → ∀ body, openGroup i = some body → ∀ j, Within M body j → PlainAt j) :
    ∃ L, Atom M i r L ∧ L ≤ framed (anyGrain M g.grain) g.alignStart (g.alignEnd && trust) := by
  unfold readDisjunction at h
  simp only [Bool.false_eq_true, if_false] at h
  split at h
  · simp at h
  · next body hbody =>
    split at h
    · next point g' hread _ =>
      simp only [Option.some.injEq, Prod.mk.injEq] at h
      obtain ⟨rfl, rfl⟩ := h
      obtain ⟨-, -, -, L, hL, hle⟩ := alternation_of_readAlternatives (hne.of_suffix (openGroup_suffix hbody)) hread
        (by simp [ClosesAll]) trust fun ht => htrust ht body hbody
      exact ⟨L, atom_of_openGroup hbody hL, hle⟩
    · next hfalse => exact absurd hfalse (by decide)
    · simp at h

/-- A disjunction without parentheses is the whole expression. -/
theorem denotes_of_readDisjunction {g : GrainSet} (hne : NoEmptySet i) (h : readDisjunction i true = some (r, g)) (trust : Bool)
    (htrust : trust = true → ∀ j, Within M i j → PlainAt j) :
    ∃ L, Denotes M i L ∧ L ≤ framed (anyGrain M g.grain) g.alignStart (g.alignEnd && trust) := by
  unfold readDisjunction at h
  simp only [if_true] at h
  split at h
  · simp at h
  · next body hbody =>
    split_ifs at hbody with hparen
    obtain rfl := Option.some.inj hbody
    split at h
    · next hfalse => exact absurd hfalse (by decide)
    · next g' hread _ =>
      simp only [Option.some.injEq, Prod.mk.injEq] at h
      obtain ⟨rfl, rfl⟩ := h
      obtain ⟨-, -, -, L, hL, hle⟩ := alternation_of_readAlternatives hne hread (by simp [ClosesAll]) trust htrust
      exact ⟨L, hL, hle⟩
    · simp at h

/-! ## The whole expression -/

theorem updateGrainBuffer_cases (b : GrainBuffer) (grain : List (List Char)) (atStart atEnd : Bool) :
    updateGrainBuffer b grain atStart atEnd = b ∨
    (updateGrainBuffer b grain atStart atEnd).grain = grain ∧ (updateGrainBuffer b grain atStart atEnd).anchorStart = atStart ∧
      (updateGrainBuffer b grain atStart atEnd).anchorEnd = atEnd := by
  unfold updateGrainBuffer
  cases grain with
  | nil => exact .inl rfl
  | cons first rest =>
    simp only
    split_ifs
    · exact .inr ⟨rfl, rfl, rfl⟩
    · exact .inl rfl

theorem branch_nil (h : Branch M [] r L) : L = 1 := by
  cases h with
  | nil => rfl
  | cons h _ => exact absurd (.inl rfl) h.not_closes

theorem not_analyseLoop_of_stuck (h : Stuck i) (fuel : ℕ) (atStart : Bool) (b : GrainBuffer) : analyseLoop fuel i atStart b = none := by
  cases fuel with
  | zero => rfl
  | succ fuel =>
    rw [analyseLoop, if_neg h.head_ne.2.2, h.readGrain]
    simp [readDisjunction, h.openGroup, h.readWildcard]

/-- A set of grains for what is read at `i`, in front of the rest of the expression. -/
theorem margin_mul_le {G : List (List Char)} {a e : Bool} (atStart e' : Bool) (hb : Branch M j [] L')
    (hle : L ≤ framed (anyGrain M G) a e) (he : j = [] → e' = true → e = true) :
    margin atStart * (L * L') ≤ framed (anyGrain M G) (atStart && a) (decide (j = []) && e') := by
  have hfirst : margin atStart * L ≤ framed (anyGrain M G) (atStart && a) e := by
    cases atStart with
    | true => rw [margin, if_pos rfl, one_mul, Bool.true_and]; exact hle
    | false => exact (mul_le_mul' le_rfl hle).trans (mul_framed_le _ _ _ _)
  rw [← mul_assoc]
  by_cases hj : j = []
  · rw [decide_eq_true hj, Bool.true_and]
    subst hj
    rw [branch_nil hb, mul_one]
    exact hfirst.trans (framed_mono le_rfl id (he rfl))
  · rw [decide_eq_false hj, Bool.false_and]
    calc margin atStart * L * L' ≤ framed (anyGrain M G) (atStart && a) e * L' := mul_le_mul' hfirst le_rfl
      _ ≤ framed (anyGrain M G) (atStart && a) false := framed_mul_le _ _ _ _

variable {b : GrainBuffer}

/-- The loop of the analyser, with what may stand in front of the rest of the expression. -/
theorem branch_of_analyseLoop {atStart : Bool} {b' : GrainBuffer} (hne : NoEmptySet i)
    (h : analyseLoop fuel i atStart b = some b') (trust : Bool) (htrust : trust = true → EndsPlain M i) :
    0 < b'.grain.length ∧ ∃ L, Branch M i [] L ∧
      (b' = b ∨ margin atStart * L ≤ framed (anyGrain M b'.grain) b'.anchorStart (b'.anchorEnd && trust)) := by
  induction fuel generalizing i atStart b with
  | zero => simp [analyseLoop] at h
  | succ fuel ih =>
    -- more elements in front of what the rest of the loop reads
    have hstep : ∀ {j : List Char} {L : Language Char} {b₁ : GrainBuffer}, Branch M i j L →
        analyseLoop fuel j false b₁ = some b' →
        (∀ L', Branch M j [] L' → b₁ = b ∨
          margin atStart * (L * L') ≤ framed (anyGrain M b₁.grain) b₁.anchorStart (b₁.anchorEnd && trust)) →
        0 < b'.grain.length ∧ ∃ L, Branch M i [] L ∧
          (b' = b ∨ margin atStart * L ≤ framed (anyGrain M b'.grain) b'.anchorStart (b'.anchorEnd && trust)) := by
      intro j L b₁ hb hloop hupdate
      obtain ⟨hpos, L', hb', hcases⟩ := ih (hne.of_suffix hb.suffix) hloop fun ht => (htrust ht).behind hb
      refine ⟨hpos, L * L', branch_append hb hb', ?_⟩
      rcases hcases with rfl | hle
      · exact hupdate L' hb'
      · refine .inr ?_
        rw [← mul_assoc]
        exact (mul_le_mul' le_top le_rfl).trans hle
    rw [analyseLoop] at h
    split_ifs at h with hend hfound
    · subst hend
      obtain rfl := Option.some.inj h
      exact ⟨hfound, 1, .nil, .inl rfl⟩
    · split at h
      · next point grain hread =>
        rcases branch_of_readGrain (M := M) hread with hstuck | ⟨L, e, hb, hle, he⟩
        · simp [not_analyseLoop_of_stuck hstuck] at h
        · refine hstep hb h fun L' hb' => ?_
          rcases updateGrainBuffer_cases b [grain] atStart (decide (point = [])) with hsame | ⟨hg, hs, hat⟩
          · exact .inl hsame
          · refine .inr ?_
            rw [hg, hs, hat]
            have hgrain := hle.trans (framed_mono (lits_le_anyGrain (List.mem_singleton_self grain)) id id)
            have hall := margin_mul_le atStart trust hb' hgrain fun hpoint ht =>
              he ((htrust ht).outside i .here) (.inl hpoint)
            rwa [Bool.and_true] at hall
      · split at h
        · next point g hread =>
          obtain ⟨L, hatom, hle⟩ := atom_of_readDisjunction hne hread trust fun ht body hbody =>
            (htrust ht).group i body .here hbody
          simp only at h
          cases hk : readKleene point with
          | none =>
            rw [hk, Option.getD_none] at h
            refine hstep (branch_single_none hatom (quantifier_of_readKleene hk)) h fun L' hb' => ?_
            rcases updateGrainBuffer_cases b g.grain (atStart && g.alignStart) (decide (point = []) && g.alignEnd)
              with hsame | ⟨hg, hs, hat⟩
            · exact .inl hsame
            · refine .inr ?_
              simp only [if_true, hg, hs, hat]
              rw [Bool.and_assoc]
              exact margin_mul_le _ _ hb' hle fun _ => id
          | some q =>
            obtain ⟨rest, plus⟩ := q
            rw [hk, Option.getD_some] at h
            rcases branch_of_readKleene hatom hk with hstuck | ⟨L₁, hb, hplus⟩
            · simp [not_analyseLoop_of_stuck hstuck] at h
            · refine hstep hb h fun L' hb' => ?_
              cases plus with
              | false => exact .inl rfl
              | true =>
                have hpoint : point ≠ [] := by
                  rintro rfl
                  simp [readKleene] at hk
                rw [decide_eq_false hpoint, Bool.false_and]
                rcases updateGrainBuffer_cases b g.grain (atStart && g.alignStart) false with hsame | ⟨hg, hs, hat⟩
                · exact .inl hsame
                · refine .inr ?_
                  simp only [if_true, hg, hs, hat]
                  have hL₁ : L₁ ≤ framed (anyGrain M g.grain) g.alignStart false :=
                    calc L₁ ≤ L * ⊤ := hplus rfl
                      _ ≤ framed (anyGrain M g.grain) g.alignStart (g.alignEnd && trust) * ⊤ := mul_le_mul' hle le_rfl
                      _ ≤ framed (anyGrain M g.grain) g.alignStart false := framed_mul_le _ _ _ _
                  have hall := margin_mul_le atStart false hb' hL₁ fun _ => id
                  rwa [Bool.and_false] at hall
        · split at h
          · next point hwild =>
            rcases branch_of_readWildcard (M := M) hne hwild with hstuck | ⟨L, hb⟩
            · simp [not_analyseLoop_of_stuck hstuck] at h
            · exact hstep hb h fun _ _ => .inl rfl
          · simp at h

theorem updateGrainBuffer_ne_nil (hb : ∀ g ∈ b.grain, g ≠ []) (grain : List (List Char)) (atStart atEnd : Bool) :
    ∀ g ∈ (updateGrainBuffer b grain atStart atEnd).grain, g ≠ [] := by
  unfold updateGrainBuffer
  cases grain with
  | nil => exact hb
  | cons first rest =>
    simp only
    split_ifs with hbetter
    · -- the shortest of the new grains has two characters
      obtain ⟨hfirst, hrest⟩ := foldl_min_length_le rest first.length
      intro g hg
      rw [← List.length_pos_iff]
      rcases List.mem_cons.mp hg with rfl | hg
      · omega
      · have := hrest g hg
        omega
    · exact hb

theorem analyseLoop_ne_nil {atStart : Bool} {b' : GrainBuffer} (hb : ∀ g ∈ b.grain, g ≠ [])
    (h : analyseLoop fuel i atStart b = some b') : ∀ g ∈ b'.grain, g ≠ [] := by
  induction fuel generalizing i atStart b with
  | zero => simp [analyseLoop] at h
  | succ fuel ih =>
    rw [analyseLoop] at h
    split_ifs at h
    · obtain rfl := Option.some.inj h
      exact hb
    · split at h
      · exact ih (updateGrainBuffer_ne_nil hb _ _ _) h
      · split at h
        · refine ih ?_ h
          split_ifs
          · exact updateGrainBuffer_ne_nil hb _ _ _
          · exact hb
        · split at h
          · exact ih hb h
          · simp at h

theorem clRegoptAnalyse_ne_nil (h : clRegoptAnalyse i = some b) : ∀ g ∈ b.grain, g ≠ [] := by
  unfold clRegoptAnalyse at h
  simp only at h
  split at h
  · split_ifs at h
    obtain rfl := Option.some.inj h
    exact updateGrainBuffer_ne_nil (by simp) _ _ _
  · exact analyseLoop_ne_nil (by simp) h

/-- Every string of an expression with grains contains one of them, where it is anchored. -/
theorem denotes_of_clRegoptAnalyse (hne : NoEmptySet i) (h : clRegoptAnalyse i = some b) (trust : Bool)
    (htrust : trust = true → EndsPlain M i) :
    ∃ L, Denotes M i L ∧ L ≤ framed (anyGrain M b.grain) b.anchorStart (b.anchorEnd && trust) := by
  unfold clRegoptAnalyse at h
  simp only at h
  split at h
  · next g hread =>
    obtain ⟨L, hL, hle⟩ := denotes_of_readDisjunction hne hread trust fun ht => (htrust ht).outside
    rcases updateGrainBuffer_cases ⟨[], 0, false, false⟩ g.grain g.alignStart g.alignEnd with hsame | ⟨hg, hs, hat⟩
    · simp [hsame] at h
    · split_ifs at h
      obtain rfl := Option.some.inj h
      refine ⟨L, hL, ?_⟩
      rw [hg, hs, hat]
      exact hle
  · obtain ⟨hpos, L, hb, rfl | hle⟩ := branch_of_analyseLoop hne h trust htrust
    · simp at hpos
    · rw [margin, if_pos rfl, one_mul] at hle
      exact ⟨L, .last hb, hle⟩

end CWB.Regopt
