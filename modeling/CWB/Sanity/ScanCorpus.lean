import CWB.Spec.ScanCorpus

/-! One key of a scan: what has been prepared for it, and that its lazily advanced region is the
one around the position, so that only positions are jumped over which the key rejects. -/

namespace CWB

open Option List Split

variable {c : ScanCorpus} {checkWords : Bool} {key : ScanKey}

/-! ## Prepared keys -/

/-- A key as `scancorpus_add_key` leaves it. -/
structure ScanKey.Prepared (c : ScanCorpus) (checkWords : Bool) (key : ScanKey) : Prop where
  length : ∀ a, key.att = .pos a → a.ids.length = c.size
  idList : ∀ a, key.att = .pos a → key.idList = key.regex.map fun rx =>
    if checkWords && !key.isConstraint then (clRegex2id a rx).filter fun id => c.wordIsRegular (a.id2str id.toNat)
    else clRegex2id a rx
  regions : ∀ a, key.att = .struc a → a.regions ≠ []
  bare : ∀ a, key.att = .struc a → a.hasValues = false → key.isConstraint = true ∧ key.regex = none

theorem scancorpusAddKey_prepared {arg : List Char} (h : c.scancorpusAddKey checkWords arg = some key) :
    key.Prepared c checkWords := by
  obtain ⟨spec, -, h⟩ := bind_eq_some_iff.mp h
  obtain ⟨regex, -, h⟩ := bind_eq_some_iff.mp h
  cases hpos : c.posAttribute spec.att with
  | some a =>
    simp only [hpos] at h
    cases h
    refine ⟨fun a' ha => ?_, fun a' ha => ?_, fun a' ha => ?_, fun a' ha => ?_⟩
    · cases ha
      exact c.posAttribute_size _ _ hpos
    · cases ha
      rfl
    · cases ha
    · cases ha
  | none =>
    simp only [hpos] at h
    obtain ⟨a, -, h⟩ := bind_eq_some_iff.mp h
    split_ifs at h with hempty hbare
    cases h
    refine ⟨fun a' ha => ?_, fun a' ha => ?_, fun a' ha => ?_, fun a' ha hvalues => ?_⟩
    · cases ha
    · cases ha
    · cases ha
      exact hempty
    · cases ha
      simpa [hvalues] using hbare

/-! ## Lexicon IDs -/

section Lexicon

variable {a : PAttribute} {cpos : ℤ}

/-- The token at a position of the corpus. -/
theorem cpos2id_some (ha : a.ids.length = c.size) (h0 : 0 ≤ cpos) (hsize : cpos < c.size) :
    ∃ id, a.cpos2id cpos = some id ∧ a.clCpos2id cpos = id ∧ id < a.lexsize := by
  have hlt : cpos.toNat < a.ids.length := by omega
  have hget : a.cpos2id cpos = some a.ids[cpos.toNat] := by
    rw [PAttribute.cpos2id, if_neg (by omega), getElem?_eq_getElem hlt]
  exact ⟨_, hget, by rw [PAttribute.clCpos2id, hget], a.id_lt _ (getElem_mem hlt)⟩

theorem id2str_mem {id : ℕ} (h : id < a.lexsize) : a.id2str id ∈ a.lexicon := by
  rw [← a.lexicon_length] at h
  rw [PAttribute.id2str, getD_eq_getElem _ _ h]
  exact getElem_mem h

theorem mem_lexicon {str : String} (h : str ∈ a.lexicon) : ∃ id < a.lexsize, a.id2str id = str := by
  obtain ⟨id, hid, heq⟩ := mem_iff_getElem.mp h
  exact ⟨id, a.lexicon_length ▸ hid, by rw [PAttribute.id2str, getD_eq_getElem _ _ hid, heq]⟩

theorem id2str_inj {id id' : ℕ} (h : id < a.lexsize) (h' : id' < a.lexsize) (heq : a.id2str id = a.id2str id') :
    id = id' := by
  rw [← a.lexicon_length] at h h'
  rw [PAttribute.id2str, PAttribute.id2str, getD_eq_getElem _ _ h, getD_eq_getElem _ _ h'] at heq
  exact (a.lexicon_nodup.getElem_inj_iff).mp heq

/-- Every lexicon entry occurs in the corpus. -/
theorem PAttribute.lexsize_le_length (a : PAttribute) : a.lexsize ≤ a.ids.length := by
  have hsub : range a.lexsize ⊆ a.ids := fun id hid => a.occurs id (mem_range.mp hid)
  have hle := (nodup_range.subperm hsub).length_le
  rwa [length_range] at hle

theorem lexsize_le (ha : a.ids.length = c.size) : a.lexsize ≤ c.size := ha ▸ a.lexsize_le_length

theorem mem_clRegex2id {rx : String → Bool} {id : ℕ} : (id : ℤ) ∈ clRegex2id a rx ↔ id < a.lexsize ∧ rx (a.id2str id) = true := by
  rw [clRegex2id, List.mem_map]
  constructor
  · intro h
    obtain ⟨id', hid', heq⟩ := h
    cases heq
    simpa using hid'
  · intro h
    exact ⟨id, by simpa using h, rfl⟩

theorem clRegex2id_ascending (rx : String → Bool) : (clRegex2id a rx).Pairwise (· < ·) := by
  rw [clRegex2id, pairwise_map]
  apply List.Pairwise.filter
  exact pairwise_lt_range.imp fun h => Int.ofNat_lt.mpr h

theorem clRegex2id_nat {rx : String → Bool} {n : ℤ} (h : n ∈ clRegex2id a rx) : ∃ id : ℕ, n = id := by
  obtain ⟨id, -, heq⟩ := mem_map.mp h
  exact ⟨id, heq.symm⟩

/-- Is this a value that `-C` filters out? -/
def ScanKey.Filtered (c : ScanCorpus) (checkWords : Bool) (key : ScanKey) (str : String) : Prop :=
  checkWords = true ∧ key.isConstraint = false ∧ c.wordIsRegular str = false

/-- A prepared list of IDs holds the matches that pass the filter of `-C`. -/
theorem ScanKey.Prepared.mem_idList (h : key.Prepared c checkWords) (ha : key.att = .pos a) {rx : String → Bool}
    (hrx : key.regex = some rx) : ∃ l, key.idList = some l ∧ l.Pairwise (· < ·) ∧ (∀ n ∈ l, ∃ id : ℕ, n = id) ∧
      ∀ id : ℕ, (id : ℤ) ∈ l ↔ id < a.lexsize ∧ rx (a.id2str id) = true ∧ ¬key.Filtered c checkWords (a.id2str id) := by
  rw [h.idList a ha, hrx]
  refine ⟨_, rfl, ?_, fun n hn => ?_, fun id => ?_⟩
  · split_ifs
    · exact (clRegex2id_ascending rx).filter _
    · exact clRegex2id_ascending rx
  · split_ifs at hn
    · exact clRegex2id_nat (mem_filter.mp hn).1
    · exact clRegex2id_nat hn
  · split_ifs with hfilter
    · rw [mem_filter, mem_clRegex2id, Int.toNat_natCast]
      simp only [Bool.and_eq_true, Bool.not_eq_true'] at hfilter
      simp [ScanKey.Filtered, hfilter, and_assoc]
    · rw [mem_clRegex2id]
      simp only [Bool.and_eq_true, Bool.not_eq_true'] at hfilter
      have hnot : ¬key.Filtered c checkWords (a.id2str id) := fun hf => hfilter ⟨hf.1, hf.2.1⟩
      simp [hnot]

end Lexicon

/-! ## What the scan makes of a position -/

namespace ScanKey

/-- The ID of a key, without the state of the scan. -/
def idAt (key : ScanKey) (cpos : ℤ) : ℤ :=
  match key.att with
  | .pos a => a.clCpos2id (cpos + key.offset)
  | .struc a =>
    match Intervals.containing SRegion.start SRegion.stop (cpos + key.offset) a.regions with
    | some r => a.virtualId r
    | none => -1

/-- The value of `accept` for one key, without the state of the scan. -/
def accepts (c : ScanCorpus) (checkWords : Bool) (key : ScanKey) (cpos : ℤ) : Bool :=
  match key.att with
  | .pos a => key.acceptId c checkWords a (a.clCpos2id (cpos + key.offset))
  | .struc a =>
    match Intervals.containing SRegion.start SRegion.stop (cpos + key.offset) a.regions with
    | some r => !(key.regex.isSome || checkWords) || key.constraintOk c checkWords (a.annotation r)
    | none => !(key.regex.isSome || key.isConstraint)

/-- The constraints of a key on a value. -/
def HoldsFor (c : ScanCorpus) (checkWords : Bool) (key : ScanKey) (str : String) : Prop :=
  (∀ rx ∈ key.regex, (rx str = true ↔ key.isNegated = false)) ∧ ¬key.Filtered c checkWords str

/-- The two ways to lose a value that meets the constraints. -/
def LostFor (c : ScanCorpus) (checkWords : Bool) (key : ScanKey) (a : PAttribute) (str : String) : Prop :=
  (∃ rx ∈ key.regex, key.isNegated = true ∧ ∀ str ∈ a.lexicon, rx str = true → key.Filtered c checkWords str) ∨
    (key.regex.isNone = true ∧ key.isConstraint = true ∧ checkWords = true ∧ c.wordIsRegular str = false)

theorem Prepared.acceptId_iff {a : PAttribute} (h : key.Prepared c checkWords) (ha : key.att = .pos a) {id : ℕ}
    (hid : id < a.lexsize) : key.acceptId c checkWords a id = true ↔
      key.HoldsFor c checkWords (a.id2str id) ∧ ¬key.LostFor c checkWords a (a.id2str id) := by
  rw [acceptId]
  cases hrx : key.regex with
  | none =>
    rw [h.idList a ha, hrx]
    simp only [HoldsFor, LostFor, Filtered, hrx, map_none, Int.toNat_natCast]
    cases checkWords
    · simp
    · cases key.isConstraint
      · simp
      · simp
  | some rx =>
    obtain ⟨l, hl, hasc, hnat, hmem⟩ := h.mem_idList ha hrx
    rw [hl]
    cases l with
    | nil =>
      simp only [Bool.false_eq_true, false_iff, not_and, not_not]
      intro hholds
      have hnone : ∀ str ∈ a.lexicon, rx str = true → key.Filtered c checkWords str := by
        intro str hstr hmatch
        obtain ⟨id', hid', rfl⟩ := mem_lexicon hstr
        by_contra hfilter
        simpa using (hmem id').mpr ⟨hid', hmatch, hfilter⟩
      refine .inl ⟨rx, hrx, ?_, hnone⟩
      by_contra hneg
      have hmatch := (hholds.1 rx hrx).mpr (by simpa using hneg)
      exact hholds.2 (hnone _ (id2str_mem hid) hmatch)
    | cons n l =>
      -- some entry is in the list, so no value is lost
      have hnotLost : ¬key.LostFor c checkWords a (a.id2str id) := by
        intro hlost
        obtain ⟨rx', hrx', -, hall⟩ | ⟨hnone, -⟩ := hlost
        · rw [hrx] at hrx'
          cases hrx'
          obtain ⟨id', rfl⟩ := hnat n mem_cons_self
          obtain ⟨hid', hmatch, hfilter⟩ := (hmem id').mp mem_cons_self
          exact hfilter (hall _ (id2str_mem hid') hmatch)
        · rw [hrx] at hnone
          cases hnone
      have hfound : (n :: l)[BinarySearch.lowerBound (id : ℤ) (n :: l)]? = some (id : ℤ) ↔ _ :=
        (BinarySearch.getElem?_lowerBound_iff hasc).trans (hmem id)
      have hholds : key.HoldsFor c checkWords (a.id2str id) ↔
          (rx (a.id2str id) = true ↔ key.isNegated = false) ∧ ¬key.Filtered c checkWords (a.id2str id) := by
        rw [HoldsFor, hrx]
        simp
      have hpass : (!(checkWords && !key.isConstraint) || c.wordIsRegular (a.id2str id)) = true ↔
          ¬key.Filtered c checkWords (a.id2str id) := by
        rw [Filtered]
        cases checkWords
        · simp
        · cases key.isConstraint
          · simp
          · simp
      rw [hholds, and_iff_left hnotLost]
      simp only
      by_cases hin : (n :: l)[BinarySearch.lowerBound (id : ℤ) (n :: l)]? = some (id : ℤ)
      · obtain ⟨-, hmatch, hfilter⟩ := hfound.mp hin
        rw [if_pos hin]
        simp [hmatch, hfilter]
      · rw [if_neg hin, Int.toNat_natCast]
        cases hneg : key.isNegated with
        | false =>
          simp only [Bool.false_eq_true, if_false, false_iff, iff_true, not_and]
          exact fun hmatch hfilter => hin (hfound.mpr ⟨hid, hmatch, hfilter⟩)
        | true =>
          rw [if_pos rfl, hpass]
          simp only [Bool.true_eq_false, iff_false]
          exact ⟨fun hfilter => ⟨fun hmatch => hin (hfound.mpr ⟨hid, hmatch, hfilter⟩), hfilter⟩, fun hh => hh.2⟩

theorem accepts_pos {a : PAttribute} (ha : key.att = .pos a) (cpos : ℤ) :
    key.accepts c checkWords cpos = key.acceptId c checkWords a (a.clCpos2id (cpos + key.offset)) := by
  simp only [accepts, ha]

theorem holds_of_value {cpos : ℤ} {str : String} (hvalue : key.value cpos = some str) :
    key.Holds c checkWords cpos ↔ key.HoldsFor c checkWords str := by
  rw [Holds, hvalue, HoldsFor, Filtered]
  simp only [not_and, Bool.not_eq_false]

theorem lost_of_value {a : PAttribute} (ha : key.att = .pos a) {cpos : ℤ} {str : String} (hvalue : key.value cpos = some str) :
    key.Lost c checkWords cpos ↔ key.LostFor c checkWords a str := by
  rw [Lost, LostFor, ha, hvalue]
  simp [Filtered]

theorem constraintOk_iff (str : String) : key.constraintOk c checkWords str = true ↔ key.HoldsFor c checkWords str := by
  have hfilter : (checkWords && !key.isConstraint && !c.wordIsRegular str) = true ↔ key.Filtered c checkWords str := by
    simp [Filtered, and_assoc]
  rw [constraintOk, HoldsFor]
  by_cases hf : key.Filtered c checkWords str
  · rw [if_pos (hfilter.mpr hf)]
    simp [hf]
  · rw [if_neg (fun h => hf (hfilter.mp h)), and_iff_left hf]
    cases key.regex with
    | none => simp
    | some rx =>
      simp only [mem_some_iff, forall_eq']
      cases rx str
      · simp
      · simp

/-- The scan accepts what meets the constraints, save for the values it loses. -/
theorem Prepared.accepts_iff (h : key.Prepared c checkWords) {cpos : ℤ} (h0 : 0 ≤ cpos) (hsize : cpos + key.offset < c.size) :
    key.accepts c checkWords cpos = true ↔ key.Holds c checkWords cpos ∧ ¬key.Lost c checkWords cpos := by
  cases ha : key.att with
  | pos a =>
    obtain ⟨id, hget, hid, hlt⟩ := cpos2id_some (h.length a ha) (by omega) hsize
    have hvalue : key.value cpos = some (a.id2str id) := by
      rw [value, ha]
      simp only [hget, map_some]
    rw [accepts_pos ha, hid, h.acceptId_iff ha hlt, holds_of_value hvalue, lost_of_value ha hvalue]
  | struc a =>
    have hlost : ¬key.Lost c checkWords cpos := by
      rw [Lost, ha]
      simp
    simp only [hlost, not_false_iff, and_true]
    rw [accepts, ha]
    simp only
    cases hreg : Intervals.containing SRegion.start SRegion.stop (cpos + key.offset) a.regions with
    | none =>
      have hvalue : key.value cpos = none := by
        rw [value, ha]
        simp only [hreg, map_none]
      rw [Holds, hvalue]
      cases key.regex <;> simp
    | some r =>
      have hvalue : key.value cpos = some (a.annotation r) := by
        rw [value, ha]
        simp only [hreg, map_some]
      rw [holds_of_value hvalue, ← constraintOk_iff]
      simp only [Bool.or_eq_true]
      constructor
      · intro hacc
        obtain hfree | hok := hacc
        · -- without a constraint the flag is set
          obtain ⟨hregex, hcheck⟩ : key.regex = none ∧ checkWords = false := by simpa using hfree
          rw [constraintOk, hcheck, hregex]
          rfl
        · exact hok
      · exact .inr

/-! ## The regions of a key -/

section Cursor

variable (c checkWords key) in
/-- The states of a key on `a`, with the regions that have been passed. -/
inductive AtRegion (a : StrucAttribute) : List SRegion → RegionCursor → Prop
  | initial : AtRegion a [] { upcoming := a.regions }
  | region (past : List SRegion) (r : SRegion) (upcoming : List SRegion) (h : a.regions = past ++ r :: upcoming) :
    AtRegion a past (key.enterRegion c checkWords a r upcoming)
  | finished : AtRegion a a.regions { upcoming := [], startCpos := c.size, endCpos := c.size, virtualId := -1 }

variable {a : StrucAttribute} {cursor : RegionCursor} {past upcoming : List SRegion} {cpos nextCpos : ℤ}

theorem advance_stay (hend : ¬cursor.endCpos < cpos) (upcoming : List SRegion) :
    key.advance c checkWords a cpos upcoming cursor nextCpos = (cursor, nextCpos) := by
  cases upcoming with
  | nil => rw [advance, if_neg hend]
  | cons r upcoming => rw [advance, if_neg hend]

theorem sourceBase_none (hregions : a.regions ≠ []) : a.sourceBase.isNone = true ↔ a.hasValues = false := by
  rw [StrucAttribute.sourceBase]
  cases hr : a.regions with
  | nil => exact absurd hr hregions
  | cons r l => cases a.hasValues <;> simp

/-- A jump goes over positions only that the key rejects. -/
theorem jump_rejected (h : key.Prepared c checkWords) (ha : key.att = .struc a) {r : SRegion}
    (hsplit : a.regions = past ++ r :: upcoming) (hpast : ∀ r' ∈ past, r'.stop < cpos + key.offset) {q : ℤ} (hq : cpos < q)
    (hjump : q < key.jump a (key.enterRegion c checkWords a r upcoming) nextCpos) :
    q < nextCpos ∨ key.accepts c checkWords q = false := by
  rw [jump] at hjump
  have hpast' : ∀ r' ∈ past, r'.stop < q + key.offset := fun r' hr' => (hpast r' hr').trans (by omega)
  split_ifs at hjump with hcond hok
  · obtain hlt | hlt := lt_max_iff.mp hjump
    · exact .inl hlt
    · -- before the region
      right
      have hbefore : q + key.offset < r.start := by
        change q < r.start - key.offset at hlt
        omega
      have hnone : Intervals.containing SRegion.start SRegion.stop (q + key.offset) a.regions = none := by
        rw [hsplit]
        exact Intervals.containing_none ((hsplit ▸ a.ascending).not_contains_of_past hpast' hbefore)
      rw [accepts, ha]
      simp only [hnone]
      simp only [Bool.not_eq_false', Bool.or_eq_true] at hcond ⊢
      obtain hregex | hbase := hcond
      · exact .inl hregex
      · exact .inr (h.bare a ha ((sourceBase_none (h.regions a ha)).mp hbase)).1
  · obtain hlt | hlt := lt_max_iff.mp hjump
    · exact .inl hlt
    · -- up to the end of a region that does not meet the constraint
      right
      have hupto : q + key.offset ≤ r.stop := by
        change q < r.stop + 1 - key.offset at hlt
        omega
      have hbad : key.constraintOk c checkWords (a.annotation r) = false := by simpa [enterRegion] using hok
      have hregex : key.regex.isSome = true := by
        obtain hregex | hbase := Bool.or_eq_true_iff.mp hcond
        · exact hregex
        · obtain ⟨hcons, hnone⟩ := h.bare a ha ((sourceBase_none (h.regions a ha)).mp hbase)
          rw [constraintOk, hcons, hnone] at hbad
          simp at hbad
      have hreg := (hsplit ▸ a.ascending).containing_eq hpast' hupto
      rw [← hsplit] at hreg
      rw [accepts, ha]
      simp only [hreg]
      split_ifs
      · simp [hregex, hbad]
      · simp [hregex]
  · exact .inl hjump

theorem jump_ge (cursor : RegionCursor) : nextCpos ≤ key.jump a cursor nextCpos := by
  rw [jump]
  split_ifs
  · exact le_max_left _ _
  · exact le_max_left _ _
  · exact le_rfl

/-- The state of a key after `advance`, and what `nextCpos` has become. -/
structure Advanced (c : ScanCorpus) (checkWords : Bool) (key : ScanKey) (a : StrucAttribute) (cpos nextCpos : ℤ)
    (r : RegionCursor × ℤ) : Prop where
  arrived : ∃ past, AtRegion c checkWords key a past r.1 ∧ ∀ r' ∈ past, r'.stop < cpos + key.offset
  reaches : cpos + key.offset ≤ r.1.endCpos
  next_ge : nextCpos ≤ r.2
  rejected : ∀ q, cpos < q → q < r.2 → q < nextCpos ∨ key.accepts c checkWords q = false

theorem advance_go (h : key.Prepared c checkWords) (ha : key.att = .struc a) (hsize : cpos + key.offset < c.size)
    (hsplit : a.regions = past ++ upcoming) (hpast : ∀ r' ∈ past, r'.stop < cpos + key.offset)
    (hend : cursor.endCpos < cpos + key.offset) (nextCpos : ℤ) :
    Advanced c checkWords key a cpos nextCpos (key.advance c checkWords a (cpos + key.offset) upcoming cursor nextCpos) := by
  induction upcoming generalizing past cursor nextCpos with
  | nil =>
    rw [append_nil] at hsplit
    rw [advance, if_pos hend]
    exact ⟨⟨past, hsplit ▸ AtRegion.finished, hpast⟩, hsize.le, le_rfl, fun q _ hq => .inl hq⟩
  | cons r upcoming ih =>
    rw [advance, if_pos hend]
    have hrejected : ∀ q, cpos < q → q < key.jump a (key.enterRegion c checkWords a r upcoming) nextCpos →
        q < nextCpos ∨ key.accepts c checkWords q = false := fun q => jump_rejected h ha hsplit hpast
    by_cases hr : r.stop < cpos + key.offset
    · have hsplit' : a.regions = (past ++ [r]) ++ upcoming := by simpa using hsplit
      have hpast' : ∀ r' ∈ past ++ [r], r'.stop < cpos + key.offset := by
        intro r' hr'
        obtain hp | heq := by simpa using hr'
        · exact hpast r' hp
        · rw [heq]
          exact hr
      have hend' : (key.enterRegion c checkWords a r upcoming).endCpos < cpos + key.offset := hr
      have hgo := ih hsplit' hpast' hend' (key.jump a (key.enterRegion c checkWords a r upcoming) nextCpos)
      refine ⟨hgo.arrived, hgo.reaches, (jump_ge _).trans hgo.next_ge, fun q hq hlt => ?_⟩
      obtain hjump | hrej := hgo.rejected q hq hlt
      · exact hrejected q hq hjump
      · exact .inr hrej
    · rw [advance_stay hr]
      exact ⟨⟨past, .region past r upcoming hsplit, hpast⟩, not_lt.mp hr, jump_ge _, hrejected⟩

theorem advance_spec (h : key.Prepared c checkWords) (ha : key.att = .struc a) (hsize : cpos + key.offset < c.size)
    (hat : AtRegion c checkWords key a past cursor) (hpast : ∀ r' ∈ past, r'.stop < cpos + key.offset) (nextCpos : ℤ) :
    Advanced c checkWords key a cpos nextCpos
      (key.advance c checkWords a (cpos + key.offset) cursor.upcoming cursor nextCpos) := by
  by_cases hend : cursor.endCpos < cpos + key.offset
  · cases hat with
    | initial => exact advance_go h ha hsize (nil_append _).symm (fun _ hr' => by cases hr') hend nextCpos
    | region past r upcoming hsplit =>
      have hsplit' : a.regions = (past ++ [r]) ++ upcoming := by simpa using hsplit
      refine advance_go h ha hsize hsplit' (fun r' hr' => ?_) hend nextCpos
      obtain hp | heq := by simpa using hr'
      · exact hpast r' hp
      · rw [heq]
        exact hend
    | finished => exact absurd hend (not_lt.mpr hsize.le)
  · rw [advance_stay hend]
    exact ⟨⟨past, hat, hpast⟩, not_lt.mp hend, le_rfl, fun q _ hq => .inl hq⟩

variable (c checkWords key) in
/-- The state of a key where the positions from `cpos` on are still to be scanned. -/
def Ready (cpos : ℤ) (cursor : RegionCursor) : Prop :=
  ∀ a, key.att = .struc a → ∃ past, AtRegion c checkWords key a past cursor ∧ ∀ r ∈ past, r.stop < cpos + key.offset

theorem Ready.mono {cpos' : ℤ} (h : key.Ready c checkWords cpos cursor) (hle : cpos ≤ cpos') :
    key.Ready c checkWords cpos' cursor := by
  intro a ha
  obtain ⟨past, hat, hpast⟩ := h a ha
  exact ⟨past, hat, fun r hr => (hpast r hr).trans_le (by omega)⟩

theorem ready_initial (cpos : ℤ) : key.Ready c checkWords cpos (RegionCursor.initial key) := by
  intro a ha
  rw [RegionCursor.initial, ha]
  exact ⟨[], .initial, fun _ hr => by cases hr⟩

/-- What the scan finds for a key at a position, and where it goes on. -/
structure Scanned (c : ScanCorpus) (checkWords : Bool) (key : ScanKey) (cpos nextCpos : ℤ)
    (r : RegionCursor × ℤ × ℤ × Bool) : Prop where
  ready : key.Ready c checkWords cpos r.1
  next_ge : nextCpos ≤ r.2.1
  rejected : ∀ q, cpos < q → q < r.2.1 → q < nextCpos ∨ key.accepts c checkWords q = false
  result : r.2.2 = (key.idAt cpos, key.accepts c checkWords cpos)

theorem scan_pos {a : PAttribute} (ha : key.att = .pos a) (cursor : RegionCursor) (cpos nextCpos : ℤ) :
    Scanned c checkWords key cpos nextCpos (key.scan c checkWords cursor cpos nextCpos) := by
  have hready : key.Ready c checkWords cpos cursor := fun a' ha' => by
    rw [ha] at ha'
    cases ha'
  rw [scan, ha]
  refine ⟨hready, le_rfl, fun q _ hq => .inl hq, ?_⟩
  rw [idAt, accepts, ha]

/-- The region that has been reached is the one that matters. -/
theorem result_of_region (hat : AtRegion c checkWords key a past cursor) (hpast : ∀ r ∈ past, r.stop < cpos + key.offset)
    (hreach : cpos + key.offset ≤ cursor.endCpos) (ha : key.att = .struc a) (h0 : 0 ≤ cpos) (hsize : cpos + key.offset < c.size) :
    (if cursor.startCpos ≤ cpos + key.offset then
      (cursor.virtualId, !(key.regex.isSome || checkWords) || cursor.constraintOk)
    else (-1, !(key.regex.isSome || key.isConstraint))) = (key.idAt cpos, key.accepts c checkWords cpos) := by
  rw [idAt, accepts, ha]
  cases hat with
  | initial =>
    have hneg : cpos + key.offset ≤ -1 := hreach
    omega
  | region past r upcoming hsplit =>
    have hreg := (hsplit ▸ a.ascending).containing_eq hpast hreach
    rw [← hsplit] at hreg
    simp only [hreg]
    by_cases hstart : r.start ≤ cpos + key.offset
    · rw [if_pos (show (key.enterRegion c checkWords a r upcoming).startCpos ≤ cpos + key.offset from hstart), if_pos hstart]
      rfl
    · rw [if_neg (show ¬(key.enterRegion c checkWords a r upcoming).startCpos ≤ cpos + key.offset from hstart), if_neg hstart]
  | finished =>
    have hnone : Intervals.containing SRegion.start SRegion.stop (cpos + key.offset) a.regions = none :=
      Intervals.containing_none fun r hr hin => absurd (hpast r hr) (not_lt.mpr hin.2)
    simp only [hnone]
    rw [if_neg (not_le.mpr hsize)]

theorem scan_struc (ha : key.att = .struc a) (cursor : RegionCursor) (cpos nextCpos : ℤ) :
    key.scan c checkWords cursor cpos nextCpos =
      let r := key.advance c checkWords a (cpos + key.offset) cursor.upcoming cursor nextCpos
      (r.1, r.2, if r.1.startCpos ≤ cpos + key.offset then (r.1.virtualId, !(key.regex.isSome || checkWords) || r.1.constraintOk)
        else (-1, !(key.regex.isSome || key.isConstraint))) := by
  rw [scan, ha]
  simp only
  split_ifs
  · rfl
  · rfl

theorem scan_spec (h : key.Prepared c checkWords) (hready : key.Ready c checkWords cpos cursor) (h0 : 0 ≤ cpos)
    (hsize : cpos + key.offset < c.size) (nextCpos : ℤ) :
    Scanned c checkWords key cpos nextCpos (key.scan c checkWords cursor cpos nextCpos) := by
  cases ha : key.att with
  | pos a => exact scan_pos ha cursor cpos nextCpos
  | struc a =>
    obtain ⟨past, hat, hpast⟩ := hready a ha
    have hadv := advance_spec h ha hsize hat hpast nextCpos
    obtain ⟨past', hat', hpast'⟩ := hadv.arrived
    have hresult := result_of_region hat' hpast' hadv.reaches ha h0 hsize
    rw [scan_struc ha]
    generalize key.advance c checkWords a (cpos + key.offset) cursor.upcoming cursor nextCpos = r at *
    refine ⟨fun a' ha' => ?_, hadv.next_ge, hadv.rejected, hresult⟩
    rw [ha] at ha'
    cases ha'
    exact ⟨past', hat', hpast'⟩

end Cursor

/-! ## IDs and values -/

section Values

variable {cpos : ℤ}

theorem idAt_pos {a : PAttribute} (h : key.Prepared c checkWords) (ha : key.att = .pos a) (h0 : 0 ≤ cpos)
    (hsize : cpos + key.offset < c.size) :
    ∃ id : ℕ, id < a.lexsize ∧ key.idAt cpos = id ∧ key.value cpos = some (a.id2str id) := by
  obtain ⟨id, hget, hid, hlt⟩ := cpos2id_some (h.length a ha) (show 0 ≤ cpos + key.offset by omega) hsize
  refine ⟨id, hlt, ?_, ?_⟩
  · rw [idAt, ha]
    exact hid
  · rw [value, ha]
    simp only [hget, map_some]

/-- The virtual ID of a region is an offset from the first annotation. -/
theorem idAt_struc {a : StrucAttribute} (h : key.Prepared c checkWords) (ha : key.att = .struc a)
    (hc : key.isConstraint = false) (cpos : ℤ) : ∃ base : ℤ, a.sourceBase = some base ∧
      ((key.idAt cpos = -1 ∧ key.value cpos = none) ∨
        ∃ r ∈ a.regions, base ≤ r.offset ∧ r.offset - base < 2 ^ 31 ∧ key.idAt cpos = r.offset - base ∧
          key.value cpos = some (a.avs r.offset)) := by
  have hvalues : a.hasValues = true := by
    by_contra hnot
    have hcons := (h.bare a ha (by simpa using hnot)).1
    rw [hc] at hcons
    cases hcons
  obtain ⟨first, l, hl⟩ := exists_cons_of_ne_nil (h.regions a ha)
  have hbase : a.sourceBase = some first.offset := by
    rw [StrucAttribute.sourceBase, if_pos hvalues, hl]
    rfl
  obtain ⟨hfirst, hmin⟩ := a.first_le first (by rw [hl]; rfl)
  refine ⟨first.offset, hbase, ?_⟩
  rw [idAt, value, ha]
  cases hreg : Intervals.containing SRegion.start SRegion.stop (cpos + key.offset) a.regions with
  | none => exact .inl ⟨by simp only [hreg], by simp only [hreg, map_none]⟩
  | some r =>
    have hmem : r ∈ a.regions := mem_of_find?_eq_some hreg
    have hlt := a.offset_lt r hmem
    refine .inr ⟨r, hmem, hmin r hmem, by omega, ?_, ?_⟩
    · simp only [hreg, StrucAttribute.virtualId, hbase]
    · simp only [hreg, map_some, StrucAttribute.annotation, if_pos hvalues]

/-- The table holds IDs from which the values are read back. -/
theorem valueOf_idAt (h : key.Prepared c checkWords) (hc : key.isConstraint = false) (h0 : 0 ≤ cpos)
    (hsize : cpos + key.offset < c.size) :
    key.valueOf (key.idAt cpos) = key.value cpos ∧ -2 ^ 31 ≤ key.idAt cpos ∧ key.idAt cpos < 2 ^ 31 := by
  cases ha : key.att with
  | pos a =>
    obtain ⟨id, hlt, hid, hvalue⟩ := idAt_pos h ha h0 hsize
    have hle := lexsize_le (h.length a ha)
    have hsize := c.size_lt
    rw [hvalue, hid, valueOf, ha]
    exact ⟨rfl, by omega, by omega⟩
  | struc a =>
    obtain ⟨base, hbase, hcase⟩ := idAt_struc h ha hc cpos
    rw [valueOf, ha]
    obtain ⟨hid, hvalue⟩ | ⟨r, -, hle, hlt, hid, hvalue⟩ := hcase
    · rw [hid, hvalue]
      exact ⟨rfl, by omega, by omega⟩
    · rw [hid, hvalue]
      simp only
      rw [if_neg (by omega), hbase, map_some, add_sub_cancel]
      exact ⟨rfl, by omega, by omega⟩

/-- Equal values have equal IDs. -/
theorem idAt_eq_of_value {q : ℤ} (h : key.Prepared c checkWords) (hc : key.isConstraint = false) (h0 : 0 ≤ cpos) (h0' : 0 ≤ q)
    (hsize : cpos + key.offset < c.size) (hsize' : q + key.offset < c.size) (hvalue : key.value cpos = key.value q) :
    key.idAt cpos = key.idAt q := by
  cases ha : key.att with
  | pos a =>
    obtain ⟨id, hlt, hid, hv⟩ := idAt_pos h ha h0 hsize
    obtain ⟨id', hlt', hid', hv'⟩ := idAt_pos h ha h0' hsize'
    rw [hv, hv'] at hvalue
    rw [hid, hid', id2str_inj hlt hlt' (some.inj hvalue)]
  | struc a =>
    obtain ⟨base, hbase, hcase⟩ := idAt_struc h ha hc cpos
    obtain ⟨base', hbase', hcase'⟩ := idAt_struc h ha hc q
    rw [hbase] at hbase'
    cases hbase'
    obtain ⟨hid, hv⟩ | ⟨r, hr, -, -, hid, hv⟩ := hcase
    · obtain ⟨hid', -⟩ | ⟨r', -, -, -, -, hv'⟩ := hcase'
      · rw [hid, hid']
      · rw [hv, hv'] at hvalue
        cases hvalue
    · obtain ⟨-, hv'⟩ | ⟨r', hr', -, -, hid', hv'⟩ := hcase'
      · rw [hv, hv'] at hvalue
        cases hvalue
      · rw [hv, hv'] at hvalue
        rw [hid, hid', a.stored_once r hr r' hr' (some.inj hvalue)]

end Values

end ScanKey

end CWB
