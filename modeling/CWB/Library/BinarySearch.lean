import Mathlib

/-! Binary search in an ascending list, as `bsearch` of the C library performs it: the
window `[l, u)` is halved until it is empty or its middle holds the key. Equal entries
do no harm, since the search only says whether the key occurs. -/

namespace BinarySearch

open Option List

variable {α : Type*} [LinearOrder α]

def searchLoop (key : α) (xs : List α) (l u : ℕ) : Bool :=
  if l < u then
    match xs[(l + u) / 2]? with
    | none => false
    | some x =>
      if key < x then searchLoop key xs l ((l + u) / 2)
      else if x < key then searchLoop key xs ((l + u) / 2 + 1) u
      else true
  else false
termination_by u - l

def search (key : α) (xs : List α) : Bool := searchLoop key xs 0 xs.length

variable {key : α}

theorem mem_of_searchLoop {xs : List α} {l u : ℕ} (h : searchLoop key xs l u = true) : key ∈ xs := by
  fun_induction searchLoop key xs l u with
  | case1 | case5 => simp at h
  | case2 l u _ x _ _ ih => exact ih h
  | case3 l u _ x _ _ _ ih => exact ih h
  | case4 l u _ x hx hlt hgt =>
    have hkey : key = x := le_antisymm (not_lt.mp hgt) (not_lt.mp hlt)
    exact hkey ▸ mem_of_getElem? hx

/-- In an ascending list the key stays inside the window. -/
theorem searchLoop_of_window {xs : List α} (hs : xs.Pairwise (· ≤ ·)) {l u k : ℕ}
    (hl : l ≤ k) (hu : k < u) (hk : xs[k]? = some key) (hlen : u ≤ xs.length) :
    searchLoop key xs l u = true := by
  have hmono : ∀ (i j : ℕ) (x y : α), i ≤ j → xs[i]? = some x → xs[j]? = some y → x ≤ y := by
    intro i j x y hij hx hy
    obtain ⟨hi, rfl⟩ := List.getElem?_eq_some_iff.mp hx
    obtain ⟨hj, rfl⟩ := List.getElem?_eq_some_iff.mp hy
    rcases Nat.eq_or_lt_of_le hij with rfl | hlt
    · exact le_rfl
    · exact pairwise_iff_getElem.mp hs i j hi hj hlt
  fun_induction searchLoop key xs l u with
  | case1 l u hlt hnone =>
    have : (l + u) / 2 < xs.length := by omega
    rw [getElem?_eq_getElem this] at hnone
    simp at hnone
  | case2 l u hlt x hx hkey ih =>
    have hmid : k < (l + u) / 2 := by
      by_contra hge
      exact absurd (hmono _ _ _ _ (not_lt.mp hge) hx hk) (not_le.mpr hkey)
    exact ih hl hmid (by omega)
  | case3 l u hlt x hx _ hkey ih =>
    have hmid : (l + u) / 2 + 1 ≤ k := by
      by_contra hge
      exact absurd (hmono _ _ _ _ (by omega) hk hx) (not_le.mpr hkey)
    exact ih hmid hu hlen
  | case4 => rfl
  | case5 l u hlt => omega

theorem search_iff_mem {xs : List α} (hs : xs.Pairwise (· ≤ ·)) : search key xs = true ↔ key ∈ xs := by
  constructor
  · exact mem_of_searchLoop
  · intro h
    obtain ⟨k, hk, hkey⟩ := mem_iff_getElem.mp h
    apply searchLoop_of_window hs (Nat.zero_le k) hk _ le_rfl
    rw [getElem?_eq_getElem hk, hkey]

/-! The search for the first entry that is not below the key: the window `[bot, top]` is cut down
to one entry, which is compared with the key only then. -/

def lowerBoundLoop (key : α) (xs : List α) : ℕ → ℕ → ℕ → ℕ
  | 0, bot, _ => bot
  | fuel + 1, bot, top =>
    if bot < top then
      if xs[(bot + top) / 2]?.any (key ≤ ·) then lowerBoundLoop key xs fuel bot ((bot + top) / 2)
      else lowerBoundLoop key xs fuel ((bot + top) / 2 + 1) top
    else bot

def lowerBound (key : α) (xs : List α) : ℕ := lowerBoundLoop key xs xs.length 0 (xs.length - 1)

theorem lowerBoundLoop_of_window {xs : List α} (hs : xs.Pairwise (· < ·)) {k : ℕ} (hk : xs[k]? = some key)
    {fuel bot top : ℕ} (hbot : bot ≤ k) (htop : k ≤ top) (hlen : top < xs.length) (hfuel : top - bot ≤ fuel) :
    lowerBoundLoop key xs fuel bot top = k := by
  induction fuel generalizing bot top with
  | zero =>
    rw [lowerBoundLoop]
    omega
  | succ fuel ih =>
    rw [lowerBoundLoop]
    by_cases hwin : bot < top
    · have hmid : (bot + top) / 2 < xs.length := by omega
      obtain ⟨hklen, hkey⟩ := List.getElem?_eq_some_iff.mp hk
      have hcmp : (key ≤ xs[(bot + top) / 2]) ↔ k ≤ (bot + top) / 2 := by
        rw [← hkey]
        constructor
        · intro hle
          by_contra hlt
          exact absurd (pairwise_iff_getElem.mp hs _ _ hmid hklen (not_le.mp hlt)) (not_lt.mpr hle)
        · intro hle
          obtain heq | hlt := hle.eq_or_lt
          · simp only [← heq, le_refl]
          · exact (pairwise_iff_getElem.mp hs _ _ hklen hmid hlt).le
      rw [if_pos hwin, getElem?_eq_getElem hmid, any_some]
      by_cases hle : k ≤ (bot + top) / 2
      · rw [if_pos (decide_eq_true (hcmp.mpr hle))]
        exact ih hbot hle hmid (by omega)
      · rw [if_neg (by simpa using fun h => hle (hcmp.mp h))]
        exact ih (by omega) htop hlen (by omega)
    · rw [if_neg hwin]
      omega

theorem getElem?_lowerBound_iff {xs : List α} (hs : xs.Pairwise (· < ·)) :
    xs[lowerBound key xs]? = some key ↔ key ∈ xs := by
  constructor
  · exact fun h => mem_of_getElem? h
  · intro h
    obtain ⟨k, hk, hkey⟩ := mem_iff_getElem.mp h
    have hk' : xs[k]? = some key := by rw [getElem?_eq_getElem hk, hkey]
    rw [lowerBound, lowerBoundLoop_of_window hs hk' (Nat.zero_le k) (by omega) (by omega) (by omega)]
    exact hk'

/-! The same search with a comparison function: negative for an entry beyond the key, zero for
the entry itself. The number of entries to search is given apart from the list. -/

section Find

variable {β : Type*} (compar : β → ℤ) (xs : List β)

def findLoop : ℕ → ℕ → ℕ → Option β
  | 0, _, _ => none
  | fuel + 1, l, u =>
    if l < u then do
      let x ← xs[(l + u) / 2]?
      if compar x < 0 then findLoop fuel l ((l + u) / 2)
      else if 0 < compar x then findLoop fuel ((l + u) / 2 + 1) u
      else some x
    else none

def find (nmemb : ℕ) : Option β := findLoop compar xs nmemb 0 nmemb

variable {compar xs}

theorem findLoop_of_window {k : ℕ} {x : β} (hk : xs[k]? = some x) (hx : compar x = 0)
    (hbelow : ∀ i y, i < k → xs[i]? = some y → 0 < compar y) (habove : ∀ i y, k < i → xs[i]? = some y → compar y < 0)
    {fuel l u : ℕ} (hl : l ≤ k) (hu : k < u) (hlen : u ≤ xs.length) (hfuel : u - l ≤ fuel) :
    findLoop compar xs fuel l u = some x := by
  induction fuel generalizing l u with
  | zero => omega
  | succ fuel ih =>
    obtain ⟨y, hy⟩ : ∃ y, xs[(l + u) / 2]? = some y := ⟨_, getElem?_eq_getElem (by omega)⟩
    rw [findLoop, if_pos (by omega), hy, bind_eq_bind, bind_some]
    obtain hlt | heq | hgt := lt_trichotomy k ((l + u) / 2)
    · rw [if_pos (habove _ y hlt hy)]
      exact ih hl hlt (by omega) (by omega)
    · rw [← heq, hk] at hy
      cases hy
      rw [if_neg (by omega), if_neg (by omega)]
    · have hpos := hbelow _ y hgt hy
      rw [if_neg (by omega), if_pos hpos]
      exact ih (by omega) hu hlen (by omega)

end Find

/-! The search that keeps the middle in the window: `[low, high)` is halved until it has one entry.
`comp k` is positive for an entry below the key; `none` means more rounds than allowed. -/

section Bisect

variable (comp : ℕ → ℤ)

def bisect : ℕ → ℕ → ℕ → Option (Option ℕ)
  | 0, _, _ => none
  | fuel + 1, low, high =>
    let mid := low + (high - low) / 2
    if comp mid = 0 then some (some mid)
    else if mid = low then some none
    else if comp mid > 0 then bisect fuel mid high
    else bisect fuel low mid

variable {comp}

/-- A window of at most `2 ^ m` entries is searched in `m + 1` rounds. -/
theorem bisect_spec {n : ℕ} (hmono : ∀ i j, i < j → j < n → comp i ≤ 0 → comp j < 0) {m fuel : ℕ} (hfuel : m < fuel)
    {low high : ℕ} (hlow : low < high) (hhigh : high ≤ n) (hwindow : high - low ≤ 2 ^ m) :
    ∃ r, bisect comp fuel low high = some r ∧ (∀ k ∈ r, low ≤ k ∧ k < high ∧ comp k = 0) ∧
      (r = none → ∀ k, low ≤ k → k < high → comp k ≠ 0) := by
  obtain ⟨fuel, rfl⟩ : ∃ f, fuel = f + 1 := ⟨fuel - 1, by omega⟩
  induction m generalizing fuel low high with
  | zero =>
    have hmid : low + (high - low) / 2 = low := by omega
    by_cases h0 : comp low = 0
    · exact ⟨some low, by simp only [bisect, hmid, if_pos h0], by simp [h0, hlow], by simp⟩
    · refine ⟨none, by simp only [bisect, hmid, if_neg h0, if_true], by simp, fun _ k hl hh => ?_⟩
      rw [show k = low by omega]
      exact h0
  | succ m ih =>
    rw [Nat.pow_succ] at hwindow
    obtain ⟨fuel, rfl⟩ : ∃ f, fuel = f + 1 := ⟨fuel - 1, by omega⟩
    rw [bisect]
    set mid := low + (high - low) / 2 with hmid
    by_cases h0 : comp mid = 0
    · exact ⟨some mid, by simp only [if_pos h0], by simp only [mem_def, some.injEq]; grind, by simp⟩
    by_cases hone : mid = low
    · refine ⟨none, by simp only [if_neg h0, if_pos hone], by simp, fun _ k hl hh => ?_⟩
      rw [show k = mid by omega]
      exact h0
    by_cases hpos : comp mid > 0
    · obtain ⟨r, hr, hfound, hnone⟩ := ih (show mid < high by omega) hhigh (by omega) fuel (by omega)
      refine ⟨r, by simp only [if_neg h0, if_neg hone, if_pos hpos, hr], fun k hk => ?_, fun hrn k hl hh hk => ?_⟩
      · have := hfound k hk
        exact ⟨by omega, this.2⟩
      · rcases Nat.lt_or_ge k mid with hlt | hge
        · have := hmono k mid hlt (by omega) hk.le
          omega
        · exact hnone hrn k hge hh hk
    · obtain ⟨r, hr, hfound, hnone⟩ := ih (show low < mid by omega) (by omega) (by omega) fuel (by omega)
      refine ⟨r, by simp only [if_neg h0, if_neg hone, if_neg hpos, hr], fun k hk => ?_, fun hrn k hl hh hk => ?_⟩
      · have := hfound k hk
        exact ⟨this.1, by omega, this.2.2⟩
      · rcases lt_trichotomy k mid with hlt | rfl | hgt
        · exact hnone hrn k hl hlt hk
        · exact h0 hk
        · have := hmono mid k hgt (by omega) (by omega)
          omega

end Bisect

end BinarySearch
