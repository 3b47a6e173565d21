import CWB.Proofs.Grains

/-! What the optimiser may do to a search: the grains are necessary for a match, and with a grain found
where the grains are anchored PCRE decides. -/

namespace CWB.Regopt

open List Anchored Pcre

/-! ## The grains that are copied -/

theorem copyGrain_framed (len : ℕ) (cutPrefix : Bool) (s : CopyState) (g : List UInt8) :
    ∃ g', (copyGrain len cutPrefix s g).grain = s.grain ++ [g'] ∧
      ((copyGrain len cutPrefix s g).anchorStart = true → s.anchorStart = true) ∧
      ((copyGrain len cutPrefix s g).anchorEnd = true → s.anchorEnd = true) ∧
      g ∈ framed (words [g']) (copyGrain len cutPrefix s g).anchorStart (copyGrain len cutPrefix s g).anchorEnd := by
  unfold copyGrain
  split_ifs with hlong hcut
  · refine ⟨_, rfl, by simp, id, ?_⟩
    refine mem_framed.mpr ⟨g.take (g.length - len), _, mem_singleton_self _, [], ?_, by simp, by simp⟩
    simp
  · refine ⟨_, rfl, id, by simp, mem_framed.mpr ⟨[], _, mem_singleton_self _, g.drop len, ?_, by simp, by simp⟩⟩
    simp
  · exact ⟨_, rfl, id, id, le_framed _ _ _ (mem_singleton_self g)⟩

/-- A grain that has been cut stands in the whole one, where it is still anchored. -/
theorem foldl_copyGrain_framed (len : ℕ) (cutPrefix : Bool) (grain : List (List UInt8)) (s : CopyState) :
    s.grain ⊆ (grain.foldl (copyGrain len cutPrefix) s).grain ∧
    ((grain.foldl (copyGrain len cutPrefix) s).anchorStart = true → s.anchorStart = true) ∧
    ((grain.foldl (copyGrain len cutPrefix) s).anchorEnd = true → s.anchorEnd = true) ∧
    words grain ≤ framed (words (grain.foldl (copyGrain len cutPrefix) s).grain)
      (grain.foldl (copyGrain len cutPrefix) s).anchorStart (grain.foldl (copyGrain len cutPrefix) s).anchorEnd := by
  induction grain generalizing s with
  | nil => exact ⟨fun _ => id, id, id, fun g hg => absurd hg (not_mem_nil)⟩
  | cons g grain ih =>
    obtain ⟨g', hgrain, hstart, hend, hg⟩ := copyGrain_framed len cutPrefix s g
    obtain ⟨hsub, hstart', hend', hall⟩ := ih (copyGrain len cutPrefix s g)
    rw [foldl_cons]
    rw [hgrain] at hsub
    refine ⟨fun x hx => hsub (by simp [hx]), fun h => hstart (hstart' h), fun h => hend (hend' h), fun x hx => ?_⟩
    rcases mem_cons.mp hx with rfl | hx
    · refine framed_mono (fun y hy => ?_) hstart' hend' hg
      obtain rfl := mem_singleton.mp hy
      exact hsub (by simp)
    · exact hall hx

/-- The grains of the object stand in those of the analyser; it has no other anchors. -/
theorem words_le_copy (casefold : List UInt8 → List UInt8) (icase a e : Bool) (grain : List (List UInt8)) :
    ((regoptDataCopyToRegexObject casefold icase grain a e).anchorStart = true → a = true) ∧
    ((regoptDataCopyToRegexObject casefold icase grain a e).anchorEnd = true → e = true) ∧
    words (if icase then grain.map casefold else grain) ≤ framed (words (regoptDataCopyToRegexObject casefold icase grain a e).grain)
      (regoptDataCopyToRegexObject casefold icase grain a e).anchorStart
      (regoptDataCopyToRegexObject casefold icase grain a e).anchorEnd := by
  unfold regoptDataCopyToRegexObject
  simp only
  generalize (if icase then grain.map casefold else grain) = grain
  exact (foldl_copyGrain_framed (grain.foldl (fun len g => if g.length < len then g.length else len) CL_MAX_LINE_LENGTH)
    (e && !a) grain ⟨[], a, e⟩).2

variable {rx : ClRegex}

theorem hit_of_framed {haystack : List UInt8}
    (h : haystack ∈ framed (words rx.grain) rx.anchorStart rx.anchorEnd) : rx.Hit haystack := by
  obtain ⟨a, g, hg, b, rfl, ha, hb⟩ := mem_framed.mp h
  unfold ClRegex.Hit
  split_ifs with hend hstart
  · refine ⟨g, hg, a, ?_⟩
    rw [hb hend, append_nil]
  · refine ⟨g, hg, b, ?_⟩
    rw [ha hstart, nil_append]
  · exact ⟨g, hg, a, b, rfl⟩

/-! ## Characters and bytes -/

variable (cs : Charset) {M : CharMeaning}

/-- PCRE takes one character for another only if the table of the character set does. -/
def Charset.Agrees (M : CharMeaning) (icase : Bool) : Prop :=
  ∀ c d, M.same c d → cs.canonical icase (cs.bytes c) = cs.canonical icase (cs.bytes d)

theorem Charset.canonical_encode (icase : Bool) (s : List Char) :
    cs.canonical icase (cs.encode s) = s.flatMap fun c => cs.canonical icase (cs.bytes c) := by
  unfold canonical encode
  split_ifs
  · rw [map_flatMap]
  · rfl

theorem Charset.length_canonical (icase : Bool) (s : List UInt8) : (cs.canonical icase s).length = s.length := by
  unfold canonical
  split_ifs
  · exact length_map _
  · rfl

theorem Charset.canonical_eq {icase : Bool} (h : cs.Agrees M icase) {g t : List Char} (ht : Forall₂ M.same g t) :
    cs.canonical icase (cs.encode t) = cs.canonical icase (cs.encode g) := by
  rw [cs.canonical_encode, cs.canonical_encode]
  induction ht with
  | nil => rfl
  | cons hc _ ih => rw [flatMap_cons, flatMap_cons, ih, h _ _ hc]

/-- The grains in the bytes of a string that has one of them. -/
theorem Charset.canonical_mem_framed {icase : Bool} (h : cs.Agrees M icase) {G : List (List Char)} {a e : Bool} {s : List Char}
    (hs : s ∈ framed (anyGrain M G) a e) :
    cs.canonical icase (cs.encode s) ∈
      framed (words (if icase then (G.map cs.encode).map (List.map cs.fold) else G.map cs.encode)) a e := by
  rw [cs.canonical_encode]
  refine flatMap_mem_framed (fun t ht => ?_) hs
  obtain ⟨g, hg, htg⟩ := ht
  rw [← cs.canonical_encode, cs.canonical_eq h (mem_lits.mp htg)]
  unfold canonical
  split_ifs
  · exact mem_map_of_mem (mem_map_of_mem hg)
  · exact mem_map_of_mem hg

/-! ## The grains and a match -/

section Match

variable (P : Pcre) (icase isPcreJitAvailable : Bool) {regex s : List Char}

theorem Charset.encode_ne_nil {g : List Char} (hg : g ≠ []) : cs.encode g ≠ [] := by
  obtain ⟨c, t, rfl⟩ := exists_cons_of_ne_nil hg
  simp [encode, cs.bytes_ne_nil c]

theorem clNewRegex_cases (h : clNewRegex cs icase isPcreJitAvailable regex = some rx) :
    ∃ b, clRegoptAnalyse regex = some b ∧
      rx = regoptDataCopyToRegexObject (List.map cs.fold) icase (b.grain.map cs.encode) b.anchorStart b.anchorEnd := by
  unfold clNewRegex at h
  split at h
  · next b hb =>
    split_ifs at h
    exact ⟨b, hb, (Option.some.inj h).symm⟩
  · simp at h

theorem clNewRegex_optimised (h : clNewRegex cs icase isPcreJitAvailable regex = some rx) : rx.Optimised := by
  obtain ⟨b, hb, rfl⟩ := clNewRegex_cases cs icase isPcreJitAvailable h
  apply regoptDataCopyToRegexObject_optimised
  have hgrain : ∀ g ∈ b.grain.map cs.encode, g ≠ [] := by
    intro g hg
    obtain ⟨g', hg', rfl⟩ := mem_map.mp hg
    exact cs.encode_ne_nil (clRegoptAnalyse_ne_nil hb g' hg')
  split_ifs
  · intro g hg
    obtain ⟨g', hg', rfl⟩ := mem_map.mp hg
    simpa using hgrain g' hg'
  · exact hgrain

/-- A grain of the object stands in the bytes of every string with a grain of the analyser, anchored where
both are. -/
theorem clNewRegex_framed (hagrees : cs.Agrees M icase) (h : clNewRegex cs icase isPcreJitAvailable regex = some rx) :
    ∃ b, clRegoptAnalyse regex = some b ∧ (rx.anchorStart = true → b.anchorStart = true) ∧
      (rx.anchorEnd = true → b.anchorEnd = true) ∧
      ∀ a e a' e' : Bool, (a' = true → a = true ∧ rx.anchorStart = true) → (e' = true → e = true ∧ rx.anchorEnd = true) →
        ∀ s ∈ framed (anyGrain M b.grain) a e, cs.canonical icase (cs.encode s) ∈ framed (words rx.grain) a' e' := by
  obtain ⟨b, hb, rfl⟩ := clNewRegex_cases cs icase isPcreJitAvailable h
  obtain ⟨hstart, hend, hle⟩ := words_le_copy (List.map cs.fold) icase b.anchorStart b.anchorEnd (b.grain.map cs.encode)
  refine ⟨b, hb, hstart, hend, fun a e a' e' ha he s hs => ?_⟩
  have hcut := framed_mono (hle.trans (framed_mono le_rfl (fun h => (ha h).2) fun h => (he h).2)) id id
    (cs.canonical_mem_framed hagrees hs)
  exact framed_framed_le (fun h => (ha h).1) (fun h => (he h).1) hcut

/-- The characters of a set; a range is written with a `-`. -/
def setHas (c : Char) : List SetToken → Bool
  | .char a :: .char '-' :: .char b :: ts => a ≤ c && c ≤ b || setHas c ts
  | .char a :: ts => a == c || setHas c ts
  | .escape _ :: ts => setHas c ts
  | [] => false

/-- Without regard to escape sequences, with case. -/
def plainMeaning : CharMeaning where
  same := Eq
  dot := {s | ∃ c ≠ '\n', s = [c]}
  escape _ := 0
  set negated ts := {s | ∃ c, s = [c] ∧ setHas c ts ≠ negated}

def latin1 : Charset where
  utf8 := false
  bytes c := [UInt8.ofNat c.toNat]
  fold b := if 65 ≤ b ∧ b ≤ 90 then b + 32 else b
  bytes_ne_nil _ := cons_ne_nil _ _

theorem latin1_agrees : latin1.Agrees plainMeaning false := by
  rintro c _ rfl
  rfl

theorem denotes_abc : ∃ L, Denotes plainMeaning ['[', 'x', ']', 'a', 'b', 'c'] L ∧ ['x', 'a', 'b', 'c'] ∈ L := by
  refine ⟨_, .last (.cons (.set (by decide) (.char (by decide) .close)) (.cons (.char (by decide)) (.cons (.char (by decide))
    (.cons (.char (by decide)) .nil)))), ?_⟩
  refine ⟨['x'], ⟨'x', rfl, by decide⟩, ['a', 'b', 'c'], ⟨['a'], ⟨'a', rfl, rfl⟩, ['b', 'c'], ⟨['b'], ⟨'b', rfl, rfl⟩, ['c'],
    ⟨['c'], ⟨'c', rfl, rfl⟩, [], rfl, rfl⟩, rfl⟩, rfl⟩, rfl⟩

end Match

end CWB.Regopt
