import Mathlib.Data.List.Infix
import Mathlib.Data.List.TakeWhile
import Mathlib.Tactic

/-! Lists split at a separator, as `strchr` and `strrchr` are used to cut strings in two. -/

namespace Split

open List

variable {α : Type*} [DecidableEq α]

/-- The elements before the first `sep` and the elements after it. -/
def splitAtFirst (sep : α) (s : List α) : Option (List α × List α) :=
  match s.dropWhile (· ≠ sep) with
  | [] => none
  | _ :: rest => some (s.takeWhile (· ≠ sep), rest)

/-- The elements before the last `sep` and the elements after it. -/
def splitAtLast (sep : α) (s : List α) : Option (List α × List α) :=
  (splitAtFirst sep s.reverse).map fun p => (p.2.reverse, p.1.reverse)

variable {sep : α} {s a b : List α}

theorem splitAtFirst_eq_none : splitAtFirst sep s = none ↔ sep ∉ s := by
  rw [splitAtFirst]
  cases hd : s.dropWhile (· ≠ sep) with
  | nil =>
    simp only [true_iff]
    intro hmem
    simpa using dropWhile_eq_nil_iff.mp hd sep hmem
  | cons c rest =>
    simp only [reduceCtorEq, false_iff, not_not]
    by_contra hmem
    have hnil : s.dropWhile (· ≠ sep) = [] := by
      rw [dropWhile_eq_nil_iff]
      intro x hx
      simp only [ne_eq, decide_eq_true_eq]
      rintro rfl
      exact hmem hx
    rw [hnil] at hd
    cases hd

theorem splitAtFirst_append (h : sep ∉ a) : splitAtFirst sep (a ++ sep :: b) = some (a, b) := by
  have hall : ∀ c ∈ a, decide (c ≠ sep) = true := by
    intro c hc
    simp only [ne_eq, decide_eq_true_eq]
    rintro rfl
    exact h hc
  rw [splitAtFirst, dropWhile_append_of_pos hall, takeWhile_append_of_pos hall]
  simp

theorem splitAtFirst_some (h : splitAtFirst sep s = some (a, b)) : s = a ++ sep :: b ∧ sep ∉ a := by
  rw [splitAtFirst] at h
  cases hd : s.dropWhile (· ≠ sep) with
  | nil =>
    rw [hd] at h
    cases h
  | cons c rest =>
    rw [hd] at h
    cases h
    have hsep : c = sep := by
      have hhead := head?_dropWhile_not (· ≠ sep) s
      rw [hd] at hhead
      simpa using hhead
    refine ⟨?_, fun hmem => ?_⟩
    · have hsplit : s.takeWhile (· ≠ sep) ++ s.dropWhile (· ≠ sep) = s := takeWhile_append_dropWhile
      rw [hd, hsep] at hsplit
      exact hsplit.symm
    · simpa using mem_takeWhile_imp hmem

theorem splitAtFirst_cons_self : splitAtFirst sep (sep :: s) = some ([], s) :=
  splitAtFirst_append (not_mem_nil)

theorem splitAtFirst_cons_of_ne {c : α} (h : c ≠ sep) :
    splitAtFirst sep (c :: s) = (splitAtFirst sep s).map fun p => (c :: p.1, p.2) := by
  cases hs : splitAtFirst sep s with
  | none =>
    rw [splitAtFirst_eq_none] at hs
    rw [Option.map_none, splitAtFirst_eq_none]
    simp [hs, h.symm]
  | some p =>
    obtain ⟨rfl, hmem⟩ := splitAtFirst_some hs
    exact splitAtFirst_append (by simp [hmem, h.symm] : sep ∉ c :: p.1)

end Split

/-! Texts of parts that each end in a separator, and what `List.splitOn` makes of them. -/

namespace Separated

variable {α : Type*} {sep : α} {vs ws : List (List α)} {w : List α}

/-- Each part with the separator behind it. -/
def closed (sep : α) (vs : List (List α)) : List α := vs.flatMap (· ++ [sep])

theorem closed_cons (v : List α) (vs : List (List α)) : closed sep (v :: vs) = v ++ sep :: closed sep vs := by
  simp [closed]

theorem closed_append (vs ws : List (List α)) : closed sep (vs ++ ws) = closed sep vs ++ closed sep ws := List.flatMap_append

theorem length_le_closed (vs : List (List α)) : vs.length ≤ (closed sep vs).length := by
  induction vs with
  | nil => exact le_rfl
  | cons v vs ih =>
    rw [closed_cons, List.length_append, List.length_cons, List.length_cons]
    omega

theorem cons_closed (vs : List (List α)) : sep :: closed sep vs = vs.flatMap (sep :: ·) ++ [sep] := by
  induction vs with
  | nil => rfl
  | cons v vs ih =>
    rw [closed_cons, ih, List.flatMap_cons]
    simp

/-! ## Words -/

section Words

variable {isBlank : α → Bool} {b : α}

/-- The parts between blanks, without empty ones. -/
def words (isBlank : α → Bool) (w : List α) : List (List α) := (w.splitOnP isBlank).filter (· ≠ [])

theorem words_cons_blank (hb : isBlank b = true) (w : List α) : words isBlank (b :: w) = words isBlank w := by
  rw [words, List.splitOnP_cons_eq_if_modifyHead, if_pos hb]
  rfl

theorem words_blanks_append {blanks : List α} (h : ∀ c ∈ blanks, isBlank c = true) (w : List α) :
    words isBlank (blanks ++ w) = words isBlank w := by
  induction blanks with
  | nil => rfl
  | cons c blanks ih =>
    obtain ⟨hc, hblanks⟩ := List.forall_mem_cons.mp h
    rw [List.cons_append, words_cons_blank hc, ih hblanks]

theorem words_word {v : List α} (hv : ∀ c ∈ v, isBlank c = false) (hne : v ≠ []) : words isBlank v = [v] := by
  rw [words, List.splitOnP_eq_singleton hv, List.filter_cons_of_pos (by simpa using hne), List.filter_nil]

theorem words_word_append {v : List α} (hv : ∀ c ∈ v, isBlank c = false) (hne : v ≠ []) (hb : isBlank b = true) (w : List α) :
    words isBlank (v ++ b :: w) = v :: words isBlank w := by
  rw [words, List.splitOnP_append_cons_of_forall_mem hv b hb, List.filter_cons_of_pos (by simpa using hne)]
  rfl

/-- The blanks before the first word, the word and what is behind it. -/
theorem exists_word (isBlank : α → Bool) (w : List α) : ∃ blanks v rest, w = blanks ++ v ++ rest ∧ (∀ c ∈ blanks, isBlank c = true) ∧
    (∀ c ∈ v, isBlank c = false) ∧ (v = [] → rest = []) ∧ ∀ c ∈ rest.head?, isBlank c = true := by
  refine ⟨w.takeWhile isBlank, (w.dropWhile isBlank).takeWhile (!isBlank ·), (w.dropWhile isBlank).dropWhile (!isBlank ·),
    ?_, List.all_eq_true.mp List.all_takeWhile,
    fun c hc => by simpa using List.all_eq_true.mp List.all_takeWhile c hc, ?_, ?_⟩
  · rw [List.append_assoc, List.takeWhile_append_dropWhile, List.takeWhile_append_dropWhile]
  · intro hnil
    have hstop := List.head?_dropWhile_not isBlank w
    cases hafter : w.dropWhile isBlank with
    | nil => rfl
    | cons c after =>
      rw [hafter, List.head?_cons] at hstop
      rw [hafter, List.takeWhile_cons_of_pos (by simpa using hstop)] at hnil
      cases hnil
  · intro c hc
    have hstop := List.head?_dropWhile_not (!isBlank ·) (w.dropWhile isBlank)
    rw [Option.mem_def.mp hc] at hstop
    simpa using hstop

end Words

/-! ## Parts -/

variable [DecidableEq α]

theorem not_mem_of_mem_splitOn {u : List α} (h : u ∈ w.splitOn sep) : sep ∉ u := by
  induction w generalizing u with
  | nil =>
    rw [List.splitOn_nil, List.mem_singleton] at h
    simp [h]
  | cons x w ih =>
    rw [List.splitOn_cons_eq_if_modifyHead] at h
    split_ifs at h with hx
    · rcases List.mem_cons.mp h with rfl | h
      · simp
      · exact ih h
    · obtain ⟨u', us, hw⟩ := List.exists_cons_of_ne_nil (List.splitOn_ne_nil sep w)
      rw [hw, List.modifyHead_cons] at h
      rcases List.mem_cons.mp h with rfl | h
      · have hu' : u' ∈ w.splitOn sep := by simp [hw]
        have hne : ¬x = sep := by simpa using hx
        simp [Ne.symm hne, ih hu']
      · exact ih (by simp [hw, h])

theorem mem_of_mem_splitOn {u : List α} (h : u ∈ w.splitOn sep) {x : α} (hx : x ∈ u) : x ∈ w := by
  induction w generalizing u with
  | nil =>
    rw [List.splitOn_nil, List.mem_singleton] at h
    rw [h] at hx
    exact hx
  | cons y w ih =>
    rw [List.splitOn_cons_eq_if_modifyHead] at h
    split_ifs at h with hy
    · rcases List.mem_cons.mp h with rfl | h
      · exact absurd hx List.not_mem_nil
      · exact List.mem_cons_of_mem _ (ih h hx)
    · obtain ⟨u', us, hw⟩ := List.exists_cons_of_ne_nil (List.splitOn_ne_nil sep w)
      rw [hw, List.modifyHead_cons] at h
      rcases List.mem_cons.mp h with rfl | h
      · exact List.mem_cons.mpr ((List.mem_cons.mp hx).imp_right fun hx => ih (by simp [hw]) hx)
      · exact List.mem_cons_of_mem _ (ih (by simp [hw, h]) hx)

theorem splitOn_closed (ws : List (List α)) : (closed sep ws).splitOn sep = ws.flatMap (List.splitOn sep) ++ [[]] := by
  induction ws with
  | nil => exact List.splitOn_nil sep
  | cons w ws ih => rw [closed_cons, List.splitOn_append_cons_self, ih, List.flatMap_cons, List.append_assoc]

theorem flatMap_splitOn (h : ∀ v ∈ vs, sep ∉ v) : vs.flatMap (List.splitOn sep) = vs := by
  induction vs with
  | nil => rfl
  | cons v vs ih =>
    obtain ⟨hv, hvs⟩ := List.forall_mem_cons.mp h
    rw [List.flatMap_cons, List.splitOn_eq_singleton hv, ih hvs, List.singleton_append]

/-- Two texts are the same if their parts are. -/
theorem closed_eq_closed_iff (h : ∀ v ∈ vs, sep ∉ v) :
    closed sep ws = closed sep vs ↔ ws.flatMap (List.splitOn sep) = vs := by
  have hsplit : (closed sep vs).splitOn sep = _ := splitOn_closed vs
  rw [flatMap_splitOn h] at hsplit
  refine ⟨fun heq => ?_, fun heq => ?_⟩
  · rw [← heq, splitOn_closed] at hsplit
    exact List.append_cancel_right hsplit
  · have hjoin : [sep].intercalate ((closed sep ws).splitOn sep) = closed sep ws := List.intercalate_splitOn sep
    rw [← hjoin, splitOn_closed, heq, ← hsplit, List.intercalate_splitOn]

theorem closed_splitOn (w : List α) : closed sep (w.splitOn sep) = w ++ [sep] := by
  have h : closed sep [w] = closed sep (w.splitOn sep) := by
    rw [closed_eq_closed_iff fun u hu => not_mem_of_mem_splitOn hu, List.flatMap_singleton]
  rw [← h, closed_cons]
  rfl

/-- The last part of a text has no separator behind it. -/
theorem eq_closed_append (sep : α) (w : List α) :
    ∃ last, sep ∉ last ∧ w.splitOn sep = (w.splitOn sep).dropLast ++ [last] ∧ w = closed sep (w.splitOn sep).dropLast ++ last := by
  have hne := List.splitOn_ne_nil sep w
  have hparts := List.dropLast_append_getLast hne
  refine ⟨(w.splitOn sep).getLast hne, not_mem_of_mem_splitOn (List.getLast_mem hne), hparts.symm, ?_⟩
  have hclosed : closed sep (w.splitOn sep) = w ++ [sep] := closed_splitOn w
  rw [← hparts, closed_append, closed_cons, ← List.append_assoc] at hclosed
  exact (List.append_cancel_right hclosed).symm

/-- A text ends in a separator, or is empty, exactly if its last part is empty. -/
theorem getLast?_splitOn_eq_nil_iff (w : List α) :
    (w.splitOn sep).getLast? = some [] ↔ w = [] ∨ w.getLast? = some sep := by
  obtain ⟨last, hsep, hsplit, hw⟩ := eq_closed_append sep w
  have hlast : (w.splitOn sep).getLast? = some last := by rw [hsplit, List.getLast?_concat]
  rw [hlast, Option.some.injEq]
  generalize (w.splitOn sep).dropLast = init at hw
  rw [hw]
  constructor
  · rintro rfl
    obtain rfl | ⟨front, v, rfl⟩ := List.eq_nil_or_concat' init
    · exact .inl rfl
    · refine .inr ?_
      rw [List.append_nil, closed_append, closed_cons, ← List.append_assoc]
      exact List.getLast?_concat
  · rintro (hnil | hend)
    · exact (List.append_eq_nil_iff.mp hnil).2
    · by_contra hne
      rw [List.getLast?_append_of_ne_nil _ hne] at hend
      exact hsep (List.mem_of_getLast? hend)

theorem exists_mem_splitOn {x : α} (h : x ∈ w) (hx : x ≠ sep) : ∃ u ∈ w.splitOn sep, x ∈ u := by
  have hclosed : x ∈ closed sep (w.splitOn sep) := by
    rw [closed_splitOn]
    exact List.mem_append_left _ h
  obtain ⟨u, hu, hmem⟩ := List.mem_flatMap.mp hclosed
  exact ⟨u, hu, (List.mem_append.mp hmem).resolve_right fun hsep => hx (List.mem_singleton.mp hsep)⟩

/-- The places of a word between two separators are the runs of parts that it consists of. -/
theorem exists_between_iff (h : ∀ v ∈ vs, sep ∉ v) :
    (∃ a b, sep :: closed sep vs = a ++ sep :: (w ++ sep :: b)) ↔ w.splitOn sep <:+: vs := by
  refine ⟨fun ⟨a, b, heq⟩ => ?_, fun ⟨A, B, heq⟩ => ⟨A.flatMap (sep :: ·), closed sep B, ?_⟩⟩
  · have hsplit : (closed sep ([] :: vs)).splitOn sep = _ := splitOn_closed ([] :: vs)
    rw [closed_cons, List.nil_append, heq, List.splitOn_append_cons_self, List.splitOn_append_cons_self, List.flatMap_cons,
      List.splitOn_nil, flatMap_splitOn h] at hsplit
    obtain ⟨x, A, ha⟩ := List.exists_cons_of_ne_nil (List.splitOn_ne_nil sep a)
    rw [ha, List.cons_append, List.append_assoc, List.singleton_append, List.cons.injEq] at hsplit
    rw [← List.dropLast_append_getLast (List.splitOn_ne_nil sep b), ← List.append_assoc, ← List.append_assoc] at hsplit
    exact ⟨A, _, (List.append_inj' hsplit.2 rfl).1⟩
  · rw [← heq, closed_append, closed_append, closed_splitOn, List.append_assoc, ← List.cons_append, cons_closed]
    simp

end Separated

/-! Terminated strings in memory. A pointer is the list of the elements from it on, up to the end of
the memory that may be read; a scan that does not meet a terminator before that has no value. -/

namespace Terminated

variable {α : Type*} [DecidableEq α] (zero : α)

def strlen : List α → Option ℕ
  | [] => none
  | c :: str => if c = zero then some 0 else (strlen str).map (· + 1)

/-- The length of the longest prefix with elements of a set only; the terminator is in no set. -/
def strspn (accept : List α) : List α → Option ℕ
  | [] => none
  | c :: str => if c ≠ zero ∧ c ∈ accept then (strspn accept str).map (· + 1) else some 0

/-- Does `strchr` find an element? It finds the terminator in every string. -/
def strchrFinds (str : List α) (c : α) : Bool := c ∈ str || c = zero

variable {zero} {str behind accept : List α}

theorem strlen_append (h : zero ∉ str) (behind : List α) : strlen zero (str ++ zero :: behind) = some str.length := by
  induction str with
  | nil => simp [strlen]
  | cons c str ih =>
    have hc := List.ne_of_not_mem_cons h
    rw [List.cons_append, strlen, if_neg (Ne.symm hc), ih (List.not_mem_of_not_mem_cons h)]
    rfl

theorem strspn_append (h : zero ∉ str) (accept behind : List α) :
    strspn zero accept (str ++ zero :: behind) = some (str.takeWhile (· ∈ accept)).length := by
  induction str with
  | nil => simp [strspn]
  | cons c str ih =>
    have hc := List.ne_of_not_mem_cons h
    have hstr := List.not_mem_of_not_mem_cons h
    rw [List.cons_append, strspn]
    by_cases hmem : c ∈ accept
    · rw [if_pos ⟨Ne.symm hc, hmem⟩, ih hstr, List.takeWhile_cons_of_pos (by simpa using hmem)]
      rfl
    · rw [if_neg fun hand => hmem hand.2, List.takeWhile_cons_of_neg (by simpa using hmem)]
      rfl

/-- `strspn` reaches the terminator exactly if all elements are in the set. -/
theorem length_takeWhile_eq : (str.takeWhile (· ∈ accept)).length = str.length ↔ ∀ c ∈ str, c ∈ accept := by
  constructor
  · intro hlen
    have hself := (List.takeWhile_prefix (· ∈ accept)).eq_of_length hlen
    simpa using List.takeWhile_eq_self_iff.mp hself
  · intro hall
    rw [List.takeWhile_eq_self_iff.mpr (by simpa using hall)]

end Terminated
