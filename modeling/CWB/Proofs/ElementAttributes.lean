import CWB.Library.Traverse
import CWB.Sanity.EncodeLine
import CWB.Spec.ElementAttributes

/-! The element attributes of a start tag. The scan of `range_open` never leaves the buffer and finds the
pairs that `parseAttributes` finds in the string; every child is opened once. -/

namespace CWB.AttributeScan

open List

/-! ## Reads -/

section Reads

variable {annot pre tail s : List UInt8} {i : ℕ}

theorem charAt_head {c : UInt8} (h : annot.drop i = c :: tail) : charAt annot i = pure c := by
  have hget : annot[i]? = some c := by
    rw [← head?_drop, h]
    rfl
  rw [charAt, hget]

theorem stringAt_zero (hs : 0 ∉ s) (h : annot.drop i = s ++ 0 :: tail) : stringAt annot i = pure s := by
  have hread : Block.readString annot i = some s :=
    Block.readString_ofString hs ⟨tail, by rw [h, Block.ofString, append_assoc, singleton_append]⟩
  rw [stringAt, hread]

/-- A loop that the terminator ends. In front of it the condition is `p`. -/
theorem skipFrom_zero {p q : UInt8 → Bool} (h0 : q 0 = false) (s tail : List UInt8) (hq : ∀ c ∈ s, q c = p c) (i : ℕ) :
    skipFrom q (s ++ 0 :: tail) i = pure (i + (s.takeWhile p).length) := by
  induction s generalizing i with
  | nil => simp [skipFrom, h0]
  | cons c s ih =>
    obtain ⟨hc, hs⟩ := forall_mem_cons.mp hq
    rw [cons_append, skipFrom, takeWhile_cons, hc]
    split_ifs
    · rw [ih hs, length_cons]
      congr 1
      omega
    · rfl

theorem skipWhile_zero {p q : UInt8 → Bool} (h0 : q 0 = false) (hq : ∀ c ∈ s, q c = p c) (h : annot.drop i = s ++ 0 :: tail) :
    skipWhile q annot i = pure (i + (s.takeWhile p).length) := by
  rw [skipWhile, h, skipFrom_zero h0 s tail hq]

/-- What is left where the loop has stopped. -/
theorem drop_skipped (p : UInt8 → Bool) (h : annot.drop i = s ++ tail) :
    annot.drop (i + (s.takeWhile p).length) = s.dropWhile p ++ tail := by
  have hsplit : annot.drop i = s.takeWhile p ++ (s.dropWhile p ++ tail) := by
    rw [h, ← append_assoc, takeWhile_append_dropWhile]
  rw [← drop_drop, hsplit, drop_left]

theorem set_at (pre v tail : List UInt8) (c b : UInt8) :
    (pre ++ (v ++ c :: tail)).set (pre.length + v.length) b = pre ++ (v ++ b :: tail) := by
  rw [set_append_right _ _ (by omega), set_append_right _ _ (by omega), Nat.add_sub_cancel_left, Nat.sub_self]
  rfl

theorem eraseFrom_zero (s tail : List UInt8) (i : ℕ) :
    eraseFrom (s ++ 0 :: tail) i =
      pure (replicate (s.takeWhile isBlank).length 0 ++ (s.dropWhile isBlank ++ 0 :: tail),
        i + (s.takeWhile isBlank).length) := by
  induction s generalizing i with
  | nil => simp [eraseFrom, isBlank]
  | cons c s ih =>
    rw [cons_append, eraseFrom, takeWhile_cons, dropWhile_cons]
    split_ifs
    · rw [ih, pure_bind, length_cons, replicate_succ]
      simp only [cons_append]
      congr 2
      omega
    · rfl

theorem eraseBlanks_zero (pre s tail : List UInt8) :
    eraseBlanks (pre ++ (s ++ 0 :: tail)) pre.length =
      pure (pre ++ (replicate (s.takeWhile isBlank).length 0 ++ (s.dropWhile isBlank ++ 0 :: tail)),
        pre.length + (s.takeWhile isBlank).length) := by
  rw [eraseBlanks, drop_left, eraseFrom_zero, pure_bind, take_left]

/-- Decoding leaves the bytes from the terminator of the value on as they are. -/
theorem entityDecodeAt_value (pre : List UInt8) {v : List UInt8} (tail : List UInt8) (hv : 0 ∉ v) :
    ∃ gap : List UInt8, gap.length + (decodeEntities v).length = v.length ∧ (∃ t, gap ++ 0 :: tail = 0 :: t) ∧
      entityDecodeAt (pre ++ (v ++ 0 :: tail)) pre.length = pre ++ (decodeEntities v ++ (gap ++ 0 :: tail)) := by
  have hfuel : v.length < (pre ++ (v ++ 0 :: tail)).length + 1 := by
    simp only [length_append]
    omega
  obtain ⟨gap, hloop⟩ := entityDecodeLoop_spec pre [] tail hv hfuel
  simp only [nil_append, length_nil, Nat.add_zero] at hloop
  have hlen : gap.length + (decodeEntities v).length = v.length := by
    have := length_entityDecodeLoop ((pre ++ (v ++ 0 :: tail)).length + 1) (pre ++ (v ++ 0 :: tail)) pre.length pre.length
    rw [hloop] at this
    simp only [length_append, length_cons] at this
    omega
  have hset : ∀ b : List UInt8, (pre ++ (decodeEntities v ++ b)).set (pre.length + (decodeEntities v).length) 0 =
      pre ++ (decodeEntities v ++ b.set 0 0) := fun b => by
    rw [set_append_right _ _ (by omega), set_append_right _ _ (by omega)]
    congr 3
    omega
  rw [entityDecodeAt, hloop]
  simp only [hset]
  cases gap with
  | nil => exact ⟨[], hlen, ⟨tail, rfl⟩, rfl⟩
  | cons b gap => exact ⟨0 :: gap, hlen, ⟨gap ++ 0 :: tail, rfl⟩, rfl⟩

end Reads

/-! ## One pair -/

/-- The value at the start of a string, and the rest behind it. -/
def valueAt : List UInt8 → Option (List UInt8 × List UInt8)
  | [] => none
  | quote :: body =>
    if quote = 34 ∨ quote = 39 then
      match body.dropWhile (· ≠ quote) with
      | [] => none
      | _ :: rest => some (body.takeWhile (· ≠ quote), rest)
    else
      let value := (quote :: body).takeWhile clXmlIsNameChar
      if value = [] then none else some (value, ((quote :: body).dropWhile clXmlIsNameChar).tail)

theorem parseAttribute_eq (s : List UInt8) :
    parseAttribute s =
      match (s.dropWhile clXmlIsNameChar).dropWhile isBlank with
      | [] => none
      | c :: rest =>
        if c = 61 then
          match valueAt (rest.dropWhile isBlank) with
          | none => none
          | some (value, rest) =>
            if s.takeWhile clXmlIsNameChar = [] then none else some ((s.takeWhile clXmlIsNameChar, value), rest)
        else none := by
  unfold parseAttribute
  generalize (s.dropWhile clXmlIsNameChar).dropWhile isBlank = t
  split
  · rename_i rest
    simp only [if_true]
    cases hrest : rest.dropWhile isBlank with
    | nil => rfl
    | cons quote body =>
      simp only [valueAt]
      by_cases hquote : quote = 34 ∨ quote = 39
      · rw [if_pos hquote, if_pos hquote]
        cases body.dropWhile (· ≠ quote) with
        | nil => rfl
        | cons _ _ => rfl
      · rw [if_neg hquote, if_neg hquote]
        by_cases hvalue : (quote :: body).takeWhile clXmlIsNameChar = []
        · rw [if_pos (.inl hvalue), if_pos hvalue]
        · simp only [hvalue, false_or, if_false]
  · rename_i hother
    cases t with
    | nil => rfl
    | cons c rest =>
      have hc : c ≠ 61 := fun h => hother rest (by rw [h])
      simp only [if_neg hc]

/-- What `scanValue` makes of the string `s` behind `pre`, where `valueAt` finds the given value in it. -/
def ScansValue (pre s : List UInt8) : Option (List UInt8 × List UInt8) → Prop
  | none => scanValue (pre ++ (s ++ [0])) pre.length = pure none
  | some (value, rest) => ∃ front tail next, (0 ∉ value ∧ 0 ∉ rest ∧ rest.length < s.length) ∧
      scanValue (pre ++ (s ++ [0])) pre.length =
        pure (some ((pre ++ front).length, next, pre ++ front ++ (value ++ 0 :: tail))) ∧
      ∃ k, next = (pre ++ front).length + value.length + k ∧ (0 :: tail).drop k = rest ++ [0]

theorem scanValue_quoted (pre : List UInt8) {quote : UInt8} {body : List UInt8} (hbody : 0 ∉ body)
    (hq : quote = 34 ∨ quote = 39) : ScansValue pre (quote :: body) (valueAt (quote :: body)) := by
  have hdrop : (pre ++ (quote :: body ++ [0])).drop pre.length = quote :: body ++ [0] := drop_left
  have hquote : charAt (pre ++ (quote :: body ++ [0])) pre.length = pure quote := charAt_head hdrop
  simp only [valueAt, ScansValue, scanValue]
  simp only [hquote, pure_bind]
  rw [if_pos hq, if_pos hq]
  have hafter : (pre ++ (quote :: body ++ [0])).drop (pre.length + 1) = body ++ [0] := by
    rw [← drop_drop, hdrop]
    rfl
  have hpoint := skipWhile_zero (p := fun c => c ≠ quote) (q := fun c => c ≠ quote && c ≠ 0) (by simp)
    (fun c hc => by simp [ne_of_mem_of_not_mem hc hbody]) hafter
  have hend := drop_skipped (fun c => c ≠ quote) hafter
  have hsplit := takeWhile_append_dropWhile (p := fun c => decide (c ≠ quote)) (l := body)
  rw [hpoint, pure_bind]
  generalize body.takeWhile (fun c => decide (c ≠ quote)) = value at hend hsplit ⊢
  cases hrest : body.dropWhile (fun c => decide (c ≠ quote)) with
  | nil =>
    rw [hrest, nil_append] at hend
    rw [charAt_head hend, pure_bind, if_pos rfl]
  | cons c rest =>
    rw [hrest] at hend hsplit
    have hc : c ≠ 0 := fun h => hbody (by rw [← hsplit, h]; simp)
    have hbuffer : pre ++ (quote :: body ++ [0]) = (pre ++ [quote]) ++ (value ++ c :: (rest ++ [0])) := by
      rw [← hsplit]
      simp
    have hlen : pre.length + 1 = (pre ++ [quote]).length := by simp
    refine ⟨[quote], rest ++ [0], _, ⟨fun h => hbody ?_, fun h => hbody ?_, ?_⟩, ?_, 1, rfl, rfl⟩
    · rw [← hsplit]
      exact mem_append_left _ h
    · rw [← hsplit]
      exact mem_append_right _ (mem_cons_of_mem _ h)
    · rw [← hsplit]
      simp only [length_cons, length_append]
      omega
    · rw [charAt_head hend, pure_bind, if_neg hc, hbuffer, hlen, set_at]

theorem scanValue_bare (pre : List UInt8) {quote : UInt8} {body : List UInt8} (hs : 0 ∉ quote :: body)
    (hq : ¬(quote = 34 ∨ quote = 39)) : ScansValue pre (quote :: body) (valueAt (quote :: body)) := by
  have hdrop : (pre ++ (quote :: body ++ [0])).drop pre.length = quote :: body ++ [0] := drop_left
  have hname : clXmlIsNameChar 0 = false := by decide
  have hquote : charAt (pre ++ (quote :: body ++ [0])) pre.length = pure quote := charAt_head hdrop
  simp only [valueAt, ScansValue, scanValue]
  simp only [hquote, pure_bind]
  rw [if_neg hq, if_neg hq]
  have hpoint := skipWhile_zero (p := clXmlIsNameChar) hname (fun _ _ => rfl) hdrop
  have hend := drop_skipped clXmlIsNameChar hdrop
  have hsplit := takeWhile_append_dropWhile (p := clXmlIsNameChar) (l := quote :: body)
  rw [hpoint, pure_bind]
  generalize quote :: body = s at hs hdrop hend hsplit ⊢
  generalize s.takeWhile clXmlIsNameChar = value at hend hsplit ⊢
  cases hrest : s.dropWhile clXmlIsNameChar with
  | nil =>
    rw [hrest, append_nil] at hsplit
    rw [hrest, nil_append] at hend
    subst hsplit
    rw [charAt_head hend, pure_bind]
    simp only [if_true]
    rw [stringAt_zero hs hdrop, pure_bind]
    by_cases hvalue : value = []
    · rw [if_pos hvalue, if_pos hvalue]
    · rw [if_neg hvalue, if_neg hvalue]
      refine ⟨[], [], _, ⟨hs, by simp, length_pos_iff.mpr hvalue⟩, ?_, 0, rfl, rfl⟩
      rw [append_nil, Nat.add_zero]
  | cons c rest =>
    rw [hrest] at hend hsplit
    have hc : c ≠ 0 := fun h => hs (by rw [← hsplit, h]; simp)
    have hvalue0 : 0 ∉ value := fun h => hs (by rw [← hsplit]; exact mem_append_left _ h)
    have hbuffer : pre ++ (s ++ [0]) = pre ++ (value ++ c :: (rest ++ [0])) := by
      rw [← hsplit]
      simp
    rw [charAt_head hend, pure_bind]
    simp only [if_neg hc]
    rw [hbuffer, set_at, stringAt_zero hvalue0 drop_left, pure_bind]
    by_cases hvalue : value = []
    · rw [if_pos hvalue, if_pos hvalue]
    · rw [if_neg hvalue, if_neg hvalue]
      refine ⟨[], rest ++ [0], _, ⟨hvalue0, fun h => hs ?_, ?_⟩, ?_, 1, rfl, rfl⟩
      · rw [← hsplit]
        exact mem_append_right _ (mem_cons_of_mem _ h)
      · rw [← hsplit]
        simp only [tail_cons, length_cons, length_append]
        omega
      · rw [append_nil]

theorem scanValue_spec (pre : List UInt8) {s : List UInt8} (hs : 0 ∉ s) : ScansValue pre s (valueAt s) := by
  cases s with
  | nil =>
    have hdrop : (pre ++ [0]).drop pre.length = [0] := drop_left
    have hzero : charAt (pre ++ [0]) pre.length = pure 0 := charAt_head hdrop
    have hpoint : skipWhile clXmlIsNameChar (pre ++ [0]) pre.length = pure pre.length :=
      skipWhile_zero (p := clXmlIsNameChar) (s := []) (by decide) (by simp) hdrop
    have hempty : stringAt (pre ++ [0]) pre.length = pure [] := stringAt_zero (s := []) (by simp) hdrop
    simp [valueAt, ScansValue, scanValue, hzero, hpoint, hempty]
  | cons quote body =>
    by_cases hq : quote = 34 ∨ quote = 39
    · exact scanValue_quoted pre (mt (mem_cons_of_mem quote) hs) hq
    · exact scanValue_bare pre hs hq

/-- A pair as `scanPair` leaves it: name and value are strings in the buffer, and from `mark` on it is unchanged. -/
structure Found (found : FoundPair) (name value rest : List UInt8) : Prop where
  name : stringAt found.annot found.elAttName = pure name
  zero : 0 ∉ value ∧ 0 ∉ rest
  value : ∃ front tail k, found.annot = front ++ (value ++ 0 :: tail) ∧ found.elAttValue = front.length ∧
    found.mark = front.length + value.length + k ∧ (0 :: tail).drop k = rest ++ [0]

theorem skipBlanks_spec (pre s : List UInt8) :
    ∃ blanks, s = blanks ++ s.dropWhile isBlank ∧
      pre ++ (s ++ [0]) = (pre ++ blanks) ++ (s.dropWhile isBlank ++ [0]) ∧
      skipWhile isBlank (pre ++ (s ++ [0])) pre.length = pure (pre ++ blanks).length := by
  have hsplit := takeWhile_append_dropWhile (p := isBlank) (l := s)
  refine ⟨s.takeWhile isBlank, hsplit.symm, ?_, ?_⟩
  · rw [append_assoc, ← append_assoc (s.takeWhile isBlank), hsplit]
  · rw [skipWhile_zero (p := isBlank) (by decide) (fun _ _ => rfl) drop_left, length_append]

/-- What `scanPair` does with the string at `mark`. -/
theorem scanPair_spec (pre : List UInt8) {s : List UInt8} (hs : 0 ∉ s) :
    match parseAttribute s with
    | none => scanPair (pre ++ (s ++ [0])) pre.length = pure none
    | some ((name, value), rest) => rest.length < s.length ∧
        ∃ found, scanPair (pre ++ (s ++ [0])) pre.length = pure (some found) ∧ Found found name value rest := by
  have hdrop : (pre ++ (s ++ [0])).drop pre.length = s ++ [0] := drop_left
  have hpoint := skipWhile_zero (p := clXmlIsNameChar) (q := clXmlIsNameChar) (by decide) (fun _ _ => rfl) hdrop
  have hsplit := takeWhile_append_dropWhile (p := clXmlIsNameChar) (l := s)
  rw [parseAttribute_eq, scanPair, hpoint, pure_bind]
  generalize s.takeWhile clXmlIsNameChar = name at hsplit ⊢
  generalize s.dropWhile clXmlIsNameChar = s₁ at hsplit ⊢
  have hname : 0 ∉ name := fun h => hs (by rw [← hsplit]; exact mem_append_left _ h)
  have hs₁ : 0 ∉ s₁ := fun h => hs (by rw [← hsplit]; exact mem_append_right _ h)
  have hbuffer : pre ++ (s ++ [0]) = (pre ++ name) ++ (s₁ ++ [0]) := by
    rw [← hsplit]
    simp
  have hsplit₁ := takeWhile_append_dropWhile (p := isBlank) (l := s₁)
  rw [hbuffer, ← length_append, eraseBlanks_zero, pure_bind]
  generalize s₁.dropWhile isBlank = s₂ at hsplit₁ ⊢
  generalize (s₁.takeWhile isBlank).length = n at ⊢
  have hpre : (pre ++ name).length + n = (pre ++ name).length + (replicate n (0 : UInt8)).length := by
    rw [length_replicate]
  have hs₂ : (pre ++ name ++ (replicate n 0 ++ (s₂ ++ [0]))).drop ((pre ++ name).length + n) = s₂ ++ [0] := by
    rw [hpre, ← length_append, ← append_assoc, drop_left]
  cases s₂ with
  | nil =>
    have hzero : charAt (pre ++ name ++ (replicate n 0 ++ ([] ++ [0]))) ((pre ++ name).length + n) = pure 0 :=
      charAt_head hs₂
    simp only [hzero, pure_bind]
    rw [if_pos (by decide)]
  | cons c s₃ =>
    have hc : charAt (pre ++ name ++ (replicate n 0 ++ (c :: s₃ ++ [0]))) ((pre ++ name).length + n) = pure c :=
      charAt_head hs₂
    simp only [hc, pure_bind]
    by_cases heq : c = 61
    · subst heq
      have hs₃ : 0 ∉ s₃ := fun h => hs₁ (by rw [← hsplit₁]; exact mem_append_right _ (mem_cons_of_mem _ h))
      have herased : ∀ rest : List UInt8, (pre ++ name ++ (replicate n 0 ++ 61 :: rest)).set ((pre ++ name).length + n) 0 =
          pre ++ name ++ (replicate n 0 ++ [0]) ++ rest := fun rest => by
        rw [hpre, set_at]
        simp
      have hlen : (pre ++ name).length + n + 1 = (pre ++ name ++ (replicate n 0 ++ [0])).length := by
        simp only [length_append, length_replicate, length_singleton]
        omega
      obtain ⟨blanks, hsplit₃, hbuffer₃, hblanks⟩ := skipBlanks_spec (pre ++ name ++ (replicate n 0 ++ [0])) s₃
      simp only [ne_eq, not_true_eq_false, if_false, if_true]
      rw [cons_append, herased, hlen, hblanks, pure_bind, hbuffer₃]
      generalize s₃.dropWhile isBlank = s₄ at hsplit₃ ⊢
      have hs₄ : 0 ∉ s₄ := fun h => hs₃ (by rw [hsplit₃]; exact mem_append_right _ h)
      have hspec := scanValue_spec (pre ++ name ++ (replicate n 0 ++ [0]) ++ blanks) hs₄
      cases hvalue : valueAt s₄ with
      | none =>
        rw [hvalue, ScansValue] at hspec
        rw [hspec, pure_bind]
      | some found =>
        obtain ⟨value, rest⟩ := found
        rw [hvalue] at hspec
        obtain ⟨front, tail, next, ⟨hvalue0, hrest0, hlt⟩, hscan, k, hk, htail⟩ := hspec
        have hend : (pre ++ name ++ (replicate n 0 ++ [0]) ++ blanks ++ front ++ (value ++ 0 :: tail)).drop pre.length =
            name ++ 0 :: (replicate n 0 ++ blanks ++ front ++ (value ++ 0 :: tail)) := by
          rw [← replicate_succ', replicate_succ]
          simp only [append_assoc, cons_append, drop_left]
        rw [hscan]
        simp only [pure_bind, stringAt_zero hname hend]
        by_cases hempty : name = []
        · rw [if_pos hempty, if_pos hempty]
        · rw [if_neg hempty, if_neg hempty]
          refine ⟨?_, _, rfl, stringAt_zero hname hend, ⟨hvalue0, hrest0⟩, _, tail, k, rfl, rfl, hk, htail⟩
          rw [← hsplit, ← hsplit₁, hsplit₃]
          simp only [length_append, length_cons]
          omega
    · rw [if_pos heq]
      simp only [if_neg heq]

/-! ## The children -/

/-- Every child is opened once, with its value. -/
def openEach {C : Type} (openChild : C → List UInt8 → Option C) (value : List UInt8 → List UInt8)
    (list : List (List UInt8 × C)) : Option (List (List UInt8 × C)) :=
  list.mapM fun c => (openChild c.2 (value c.1)).map (c.1, ·)

/-- The decoded value of the first pair of a name, or the empty string. -/
def firstValue (pairs : List (List UInt8 × List UInt8)) (name : List UInt8) : List UInt8 :=
  ((pairs.lookup name).map clXmlEntityDecode).getD []

section Children

variable {C : Type} (openChild : C → List UInt8 → Option C)

/-- The entry of the name is handled. -/
def handle (name : List UInt8) (child : C) (e : ElementEntry C) : ElementEntry C :=
  if e.name = name then { e with handled := true, child } else e

@[simp] theorem name_handle (name : List UInt8) (child : C) (e : ElementEntry C) : (handle name child e).name = e.name := by
  unfold handle
  split_ifs <;> rfl

/-- What `delegate` does with a name and a value. -/
def give (entries : List (ElementEntry C)) (pair : List UInt8 × List UInt8) : Option (List (ElementEntry C)) :=
  match entries.find? fun e => e.name = pair.1 with
  | none => some entries
  | some entry =>
    if entry.handled then some entries
    else (openChild entry.child (clXmlEntityDecode pair.2)).map fun child => entries.map (handle pair.1 child)

/-- What becomes of an entry that gets the values of these pairs. -/
def settle (pairs : List (List UInt8 × List UInt8)) (e : ElementEntry C) : Option (List UInt8 × C) :=
  if e.handled then some (e.name, e.child) else (openChild e.child (firstValue pairs e.name)).map (e.name, ·)

theorem firstValue_cons (p : List UInt8 × List UInt8) (ps : List (List UInt8 × List UInt8)) (name : List UInt8) :
    firstValue (p :: ps) name = if name = p.1 then clXmlEntityDecode p.2 else firstValue ps name := by
  rw [firstValue, lookup_cons]
  split_ifs with h
  · simp [h]
  · rw [beq_false_of_ne h]
    rfl

theorem settle_cons {p : List UInt8 × List UInt8} (ps : List (List UInt8 × List UInt8)) {e : ElementEntry C}
    (h : e.handled = true ∨ e.name ≠ p.1) : settle openChild (p :: ps) e = settle openChild ps e := by
  unfold settle
  obtain h | h := h
  · rw [if_pos h, if_pos h]
  · rw [firstValue_cons, if_neg h]

variable {entries : List (ElementEntry C)}

/-- Giving out the pairs one by one opens every child with its first value. -/
theorem names_give {es : List (ElementEntry C)} {p : List UInt8 × List UInt8}
    (h : give openChild entries p = some es) : es.map ElementEntry.name = entries.map ElementEntry.name := by
  have hhandle : ∀ child, (entries.map (handle p.1 child)).map ElementEntry.name = entries.map ElementEntry.name :=
    fun child => by
      rw [map_map]
      exact map_congr_left fun e _ => name_handle p.1 child e
  rw [give] at h
  split at h
  · rw [Option.some.inj h]
  · split_ifs at h
    · rw [Option.some.inj h]
    · obtain ⟨child, -, rfl⟩ := Option.map_eq_some_iff.mp h
      exact hhandle child

/-- One pair is handed over. -/
theorem give_step (p : List UInt8 × List UInt8) (ps : List (List UInt8 × List UInt8))
    (hnames : (entries.map ElementEntry.name).Nodup) :
    ((give openChild entries p).bind fun es => es.mapM (settle openChild ps)) =
      entries.mapM (settle openChild (p :: ps)) := by
  have hkeep : (∀ e ∈ entries, e.handled = true ∨ e.name ≠ p.1) →
      entries.mapM (settle openChild ps) = entries.mapM (settle openChild (p :: ps)) := fun h =>
    (Traverse.mapM_congr fun e he => settle_cons openChild ps (h e he)).symm
  cases hfind : entries.find? fun e => e.name = p.1 with
  | none =>
    have hgive : give openChild entries p = some entries := by
      rw [give, hfind]
    rw [hgive, Option.bind_some]
    exact hkeep fun e he => .inr (by simpa using find?_eq_none.mp hfind e he)
  | some entry =>
    have hmem := mem_of_find?_eq_some hfind
    have hname : entry.name = p.1 := by simpa using find?_some hfind
    have hunique : ∀ e ∈ entries, e.name = p.1 → e = entry := fun e he h =>
      inj_on_of_nodup_map hnames he hmem (h.trans hname.symm)
    by_cases hhandled : entry.handled
    · have hgive : give openChild entries p = some entries := by
        rw [give, hfind]
        simp only [hhandled, if_true]
      rw [hgive, Option.bind_some]
      exact hkeep fun e he => (em (e.name = p.1)).imp (fun h => (hunique e he h).symm ▸ hhandled) id
    · have hgive : give openChild entries p =
          (openChild entry.child (clXmlEntityDecode p.2)).map fun child => entries.map (handle p.1 child) := by
        rw [give, hfind]
        simp only [hhandled, if_false, Bool.false_eq_true]
      have hsettle : settle openChild (p :: ps) entry =
          (openChild entry.child (clXmlEntityDecode p.2)).map (entry.name, ·) := by
        rw [settle, if_neg hhandled, firstValue_cons, if_pos hname]
      cases hopen : openChild entry.child (clXmlEntityDecode p.2) with
      | none =>
        rw [hopen] at hgive hsettle
        rw [hgive, Traverse.mapM_none hmem hsettle]
        rfl
      | some child =>
        rw [hopen] at hgive hsettle
        have hentries : ∀ e ∈ entries, settle openChild ps (handle p.1 child e) = settle openChild (p :: ps) e := by
          intro e he
          by_cases h : e.name = p.1
          · rw [hunique e he h, hsettle, handle, if_pos hname]
            rfl
          · rw [handle, if_neg h, settle_cons openChild ps (.inr h)]
        rw [hgive, Option.map_some, Option.bind_some, mapM_map]
        exact Traverse.mapM_congr hentries

theorem foldlM_give (ps : List (List UInt8 × List UInt8)) (hnames : (entries.map ElementEntry.name).Nodup) :
    ((ps.foldlM (give openChild) entries).bind fun es => es.mapM (settle openChild [])) =
      entries.mapM (settle openChild ps) := by
  induction ps generalizing entries with
  | nil => rfl
  | cons p ps ih =>
    rw [foldlM_cons, ← give_step openChild p ps hnames]
    cases hgive : give openChild entries p with
    | none => rfl
    | some es =>
      apply ih
      rw [names_give openChild hgive]
      exact hnames

theorem stopped_bind {α β : Type} (o : Option α) (f : α → Option β) :
    stopped (o.bind f) = stopped o >>= fun a => stopped (f a) := by
  cases o <;> rfl

theorem mapM_stopped {α β : Type} (f : α → Option β) (l : List α) : l.mapM (fun a => stopped (f a)) = stopped (l.mapM f) := by
  induction l with
  | nil => rfl
  | cons a l ih =>
    rw [mapM_cons, mapM_cons, ih, Option.bind_eq_bind, stopped_bind]
    congr 1
    funext b
    rw [Option.bind_eq_bind, stopped_bind]
    rfl

/-- A pair of the buffer is given to its child, and what is behind it stays. -/
theorem delegate_spec (entries : List (ElementEntry C)) {found : FoundPair} {name value rest : List UInt8}
    (h : Found found name value rest) :
    ∃ annot, annot.drop found.mark = rest ++ [0] ∧
      delegate openChild entries found = stopped (give openChild entries (name, value)) >>= fun es => pure (es, annot) := by
  obtain ⟨front, tail, k, hannot, hat, hmark, htail⟩ := h.value
  have hrest : found.annot.drop found.mark = rest ++ [0] := by
    rw [hannot, hmark, ← drop_drop, ← drop_drop, drop_left, drop_left, htail]
  rw [delegate, h.name, pure_bind, give]
  cases entries.find? fun e => e.name = name with
  | none => exact ⟨found.annot, hrest, rfl⟩
  | some entry =>
    by_cases hhandled : entry.handled
    · simp only [hhandled, if_true]
      exact ⟨found.annot, hrest, rfl⟩
    · simp only [hhandled, if_false, Bool.false_eq_true]
      obtain ⟨gap, hlen, ⟨t, ht⟩, hdecode⟩ := entityDecodeAt_value front tail h.zero.1
      have hvalue : stringAt (entityDecodeAt found.annot found.elAttValue) found.elAttValue = pure (clXmlEntityDecode value) := by
        rw [clXmlEntityDecode_eq h.zero.1]
        refine stringAt_zero (zero_notMem_decodeEntities h.zero.1) (?_ : _ = _ ++ 0 :: t)
        rw [hannot, hat, hdecode, drop_left, ht]
      refine ⟨entityDecodeAt found.annot found.elAttValue, ?_, ?_⟩
      · rw [hannot, hat, hdecode, hmark, ← hlen, Nat.add_comm gap.length, ← Nat.add_assoc, ← drop_drop, ← drop_drop,
          ← drop_drop, drop_left, drop_left, drop_left, htail]
      · rw [hvalue, pure_bind]
        cases openChild entry.child (clXmlEntityDecode value) <;> rfl

theorem parseAttributes_nil (n : ℕ) : parseAttributes n [] = [] := by
  cases n <;> rfl

/-- The scan from `mark` on. -/
theorem scanLoop_eq {fuel n mark : ℕ} {annot : Block} {s : List UInt8} (entries : List (ElementEntry C)) (hs : 0 ∉ s)
    (hfuel : s.length < fuel) (hn : s.length ≤ n) (hdrop : annot.drop mark = s ++ [0]) :
    scanLoop openChild fuel annot mark entries = stopped ((parseAttributes n s).foldlM (give openChild) entries) := by
  induction fuel generalizing n mark annot s entries with
  | zero => exact absurd hfuel (Nat.not_lt_zero _)
  | succ fuel ih =>
    rw [scanLoop]
    cases s with
    | nil =>
      rw [charAt_head (show _ = 0 :: [] from hdrop), pure_bind, if_pos rfl, parseAttributes_nil]
      rfl
    | cons c s =>
      have hc : c ≠ 0 := fun h => hs (by simp [h])
      have hmark : mark ≤ annot.length := by
        by_contra hlong
        rw [drop_eq_nil_of_le (by omega)] at hdrop
        cases hdrop
      have hsplit : annot = annot.take mark ++ (c :: s ++ [0]) := by
        rw [← hdrop, take_append_drop]
      have hspec := scanPair_spec (annot.take mark) hs
      rw [← hsplit, length_take_of_le hmark] at hspec
      obtain ⟨n, rfl⟩ : ∃ m, n = m + 1 := ⟨n - 1, by rw [length_cons] at hn; omega⟩
      rw [charAt_head hdrop, pure_bind, if_neg hc, parseAttributes, if_neg (cons_ne_nil c s)]
      cases hparse : parseAttribute (c :: s) with
      | none =>
        rw [hparse] at hspec
        rw [hspec]
        rfl
      | some pair =>
        obtain ⟨⟨name, value⟩, rest⟩ := pair
        rw [hparse] at hspec
        obtain ⟨hlt, found, hscan, hfound⟩ := hspec
        obtain ⟨annot', hannot', hdelegate⟩ := delegate_spec openChild entries hfound
        have hshort := (dropWhile_suffix isBlank (l := rest)).length_le
        have hrest : 0 ∉ rest.dropWhile isBlank := fun h => hfound.zero.2 ((dropWhile_sublist isBlank).subset h)
        have hblanks := skipWhile_zero (p := isBlank) (q := isBlank) (by decide) (fun _ _ => rfl) hannot'
        have hnext := drop_skipped isBlank hannot'
        rw [hscan, pure_bind]
        simp only [hdelegate, bind_assoc, pure_bind, hblanks]
        rw [foldlM_cons, Option.bind_eq_bind, stopped_bind]
        congr 1
        funext es
        exact ih es hrest (by omega) (by omega) hnext

/-- The element attributes that `range_open` opens, with the pairs of the string. -/
theorem openElements_eq (elAtts : ElementAttributes C) {annot : List UInt8} (h0 : 0 ∉ annot) :
    openElements openChild elAtts annot =
      stopped (openEach openChild (firstValue (parseAttributes annot.length annot)) elAtts.list) := by
  have hentries : ((elAtts.list.map fun a => ({ name := a.1, child := a.2 } : ElementEntry C)).map ElementEntry.name).Nodup := by
    rw [map_map]
    exact elAtts.nodup
  have hfinish : ∀ e : ElementEntry C, (do
      if e.handled then pure (e.name, e.child)
      else
        let child ← stopped (openChild e.child [])
        pure (e.name, child)) = stopped (settle openChild [] e) := by
    intro e
    rw [settle]
    by_cases hhandled : e.handled
    · rw [if_pos hhandled, if_pos hhandled]
      rfl
    · rw [if_neg hhandled, if_neg hhandled]
      change _ = stopped ((openChild e.child []).map (e.name, ·))
      cases openChild e.child [] <;> rfl
  rw [openElements]
  simp only [hfinish]
  rw [scanLoop_eq openChild _ h0 (Nat.lt_succ_self _) le_rfl rfl]
  simp only [mapM_stopped]
  rw [← stopped_bind, foldlM_give openChild _ hentries, mapM_map]
  rfl

end Children

/-! ## Well-formed annotations -/

/-- A pair `name="value"`, `name='value'` or, without a quote, `name=id`, with blanks around the `=` and behind it. -/
structure WrittenPair where
  name : List UInt8
  value : List UInt8
  quote : Option UInt8
  before : List UInt8 := []
  after : List UInt8 := []
  behind : List UInt8 := []
  nonempty : name ≠ []
  nameChars : ∀ c ∈ name, clXmlIsNameChar c = true
  blanks : ∀ c ∈ before ++ (after ++ behind), isBlank c = true
  quoted : ∀ q ∈ quote, (q = 34 ∨ q = 39) ∧ q ∉ value
  unquoted : quote = none → value ≠ [] ∧ ∀ c ∈ value, clXmlIsNameChar c = true

namespace WrittenPair

/-- The value with its quotes. -/
def valueText (p : WrittenPair) : List UInt8 :=
  match p.quote with
  | some q => q :: (p.value ++ [q])
  | none => p.value

def text (p : WrittenPair) : List UInt8 := p.name ++ (p.before ++ 61 :: (p.after ++ (p.valueText ++ p.behind)))

def pair (p : WrittenPair) : List UInt8 × List UInt8 := (p.name, p.value)

end WrittenPair

/-- An annotation string. -/
def pairsText (ps : List WrittenPair) : List UInt8 := ps.flatMap WrittenPair.text

/-- An id that another pair follows ends at a blank. -/
def IdsEnd (ps : List WrittenPair) : Prop := ps.IsChain fun p _ => p.quote = none → p.behind ≠ []

theorem span_stop {p : UInt8 → Bool} {l m : List UInt8} (hl : ∀ c ∈ l, p c = true) (hm : ∀ c ∈ m.head?, p c = false) :
    (l ++ m).takeWhile p = l ∧ (l ++ m).dropWhile p = m := by
  rw [takeWhile_append_of_pos hl, dropWhile_append_of_pos hl]
  cases m with
  | nil => simp
  | cons c m =>
    have hc : ¬p c = true := by simp [hm c rfl]
    rw [takeWhile_cons_of_neg hc, dropWhile_cons_of_neg hc, append_nil]
    exact ⟨rfl, rfl⟩

theorem name_of_blank {c : UInt8} (h : isBlank c = true) : clXmlIsNameChar c = false := by
  obtain rfl | rfl : c = 32 ∨ c = 9 := by simpa [isBlank] using h
  · decide
  · decide

theorem blank_of_name {c : UInt8} (h : clXmlIsNameChar c = true) : isBlank c = false := by
  by_contra hblank
  rw [name_of_blank (by simpa using hblank)] at h
  cases h

theorem mem_head_append {l m : List UInt8} {c : UInt8} (h : c ∈ (l ++ m).head?) : c ∈ l ∨ l = [] ∧ c ∈ m.head? := by
  cases l with
  | nil => exact .inr ⟨rfl, h⟩
  | cons b l =>
    obtain rfl : b = c := by simpa using h
    exact .inl mem_cons_self

/-- The value of a written pair is found. -/
theorem valueAt_written (p : WrittenPair) {rest : List UInt8} (hend : p.quote = none → p.behind ≠ [] ∨ rest = []) :
    ∃ rest', valueAt (p.valueText ++ (p.behind ++ rest)) = some (p.value, rest') ∧
      rest'.dropWhile isBlank = rest.dropWhile isBlank := by
  have hbehind : ∀ c ∈ p.behind, isBlank c = true := fun c hc => p.blanks c (by simp [hc])
  have hskip : (p.behind ++ rest).dropWhile isBlank = rest.dropWhile isBlank := dropWhile_append_of_pos hbehind
  cases hquote : p.quote with
  | some q =>
    obtain ⟨hq, hvalue⟩ := p.quoted q hquote
    have hspan := span_stop (p := fun c => decide (c ≠ q)) (l := p.value) (m := q :: (p.behind ++ rest))
      (fun c hc => by simpa using ne_of_mem_of_not_mem hc hvalue) (by simp)
    have htext : p.valueText ++ (p.behind ++ rest) = q :: (p.value ++ q :: (p.behind ++ rest)) := by
      rw [WrittenPair.valueText, hquote]
      simp
    refine ⟨p.behind ++ rest, ?_, hskip⟩
    rw [htext, valueAt, if_pos hq, hspan.1, hspan.2]
  | none =>
    obtain ⟨hne, hvalue⟩ := p.unquoted hquote
    have hstop : ∀ c ∈ (p.behind ++ rest).head?, clXmlIsNameChar c = false := by
      intro c hc
      obtain hc | ⟨hempty, hc⟩ := mem_head_append hc
      · exact name_of_blank (hbehind c hc)
      · obtain hb | rfl := hend hquote
        · exact absurd hempty hb
        · cases hc
    have hspan := span_stop hvalue hstop
    have htext : p.valueText = p.value := by
      rw [WrittenPair.valueText, hquote]
    obtain ⟨c, v, hcons⟩ := exists_cons_of_ne_nil hne
    have hc : ¬(c = 34 ∨ c = 39) := by
      have hname := hvalue c (by rw [hcons]; exact mem_cons_self)
      rintro (rfl | rfl) <;> exact absurd hname (by decide)
    refine ⟨(p.behind ++ rest).tail, ?_, ?_⟩
    · rw [htext]
      rw [hcons, cons_append] at hspan ⊢
      rw [valueAt, if_neg hc, hspan.1, hspan.2]
      simp only [cons_ne_nil, if_false]
    · rw [← hskip]
      cases hb : p.behind with
      | nil =>
        obtain hb' | rfl := hend hquote
        · exact absurd hb hb'
        · rfl
      | cons b bs => rw [cons_append, tail_cons, dropWhile_cons_of_pos (hbehind b (by simp [hb]))]

theorem parseAttribute_written (p : WrittenPair) {rest : List UInt8} (hend : p.quote = none → p.behind ≠ [] ∨ rest = []) :
    ∃ rest', parseAttribute (p.text ++ rest) = some (p.pair, rest') ∧ rest'.dropWhile isBlank = rest.dropWhile isBlank := by
  obtain ⟨rest', hvalue, hrest⟩ := valueAt_written p hend
  have htext : p.text ++ rest = p.name ++ (p.before ++ 61 :: (p.after ++ (p.valueText ++ (p.behind ++ rest)))) := by
    simp [WrittenPair.text]
  have hname := span_stop (m := p.before ++ 61 :: (p.after ++ (p.valueText ++ (p.behind ++ rest)))) p.nameChars fun c hc => by
    obtain hc | ⟨-, hc⟩ := mem_head_append hc
    · exact name_of_blank (p.blanks c (by simp [hc]))
    · obtain rfl : 61 = c := by simpa using hc
      decide
  have hbefore := span_stop (l := p.before) (m := 61 :: (p.after ++ (p.valueText ++ (p.behind ++ rest)))) (p := isBlank)
    (fun c hc => p.blanks c (by simp [hc])) (by simp [isBlank])
  have hafter := span_stop (l := p.after) (m := p.valueText ++ (p.behind ++ rest)) (p := isBlank)
    (fun c hc => p.blanks c (by simp [hc])) fun c hc => by
      unfold WrittenPair.valueText at hc
      cases hquote : p.quote with
      | some q =>
        simp only [hquote, cons_append, head?_cons, Option.mem_def, Option.some.injEq] at hc
        subst hc
        obtain ⟨rfl | rfl, -⟩ := p.quoted q hquote <;> decide
      | none =>
        simp only [hquote] at hc
        obtain hc | ⟨hempty, -⟩ := mem_head_append hc
        · exact blank_of_name ((p.unquoted hquote).2 c hc)
        · exact absurd hempty (p.unquoted hquote).1
  refine ⟨rest', ?_, hrest⟩
  rw [parseAttribute_eq, htext, hname.1, hname.2, hbefore.2]
  simp only [if_true, hafter.2, hvalue, if_neg p.nonempty]
  rfl

/-- A pair does not begin with a blank. -/
theorem dropWhile_pairsText (ps : List WrittenPair) : (pairsText ps).dropWhile isBlank = pairsText ps := by
  cases ps with
  | nil => rfl
  | cons p ps =>
    obtain ⟨c, name, hname⟩ := exists_cons_of_ne_nil p.nonempty
    have hc : ¬isBlank c = true := by
      rw [blank_of_name (p.nameChars c (by rw [hname]; exact mem_cons_self))]
      simp
    rw [pairsText, flatMap_cons, WrittenPair.text, hname, cons_append, cons_append, dropWhile_cons_of_neg hc]

theorem text_ne_nil (p : WrittenPair) : p.text ≠ [] := by
  simp [WrittenPair.text, p.nonempty]

/-- The pairs of a well-formed annotation are found. -/
theorem parseAttributes_pairsText {ps : List WrittenPair} (h : IdsEnd ps) {n : ℕ} (hn : (pairsText ps).length ≤ n) :
    parseAttributes n (pairsText ps) = ps.map WrittenPair.pair := by
  induction ps generalizing n with
  | nil => exact parseAttributes_nil n
  | cons p ps ih =>
    have hcons : pairsText (p :: ps) = p.text ++ pairsText ps := by
      rw [pairsText, flatMap_cons]
      rfl
    have hpos := length_pos_iff.mpr (text_ne_nil p)
    have hend : p.quote = none → p.behind ≠ [] ∨ pairsText ps = [] := by
      intro hquote
      cases ps with
      | nil => exact .inr rfl
      | cons q ps => exact .inl ((isChain_cons_cons.mp h).1 hquote)
    obtain ⟨rest', hparse, hrest⟩ := parseAttribute_written p hend
    rw [hcons, length_append] at hn
    obtain ⟨n, rfl⟩ : ∃ m, n = m + 1 := ⟨n - 1, by omega⟩
    rw [hcons, parseAttributes, if_neg (by simp [text_ne_nil p]), hparse]
    simp only [hrest, dropWhile_pairsText]
    rw [ih h.tail (by omega), map_cons]

section Claim

variable {C : Type} (openChild : C → List UInt8 → Option C) (elAtts : ElementAttributes C)

/-- Whatever the annotation is, the scan stays in it and every child is opened once. With well-formed pairs
its value is the decoded one of the first pair of its name. -/
theorem openElements_exact {annot : List UInt8} (h0 : 0 ∉ annot) :
    (∃ value, openElements openChild elAtts annot = stopped (openEach openChild value elAtts.list)) ∧
    openElements openChild elAtts annot ≠ .error .beyondTheEnd ∧
    ∀ ps, IdsEnd ps → annot = pairsText ps → openElements openChild elAtts annot =
      stopped (openEach openChild (firstValue (ps.map WrittenPair.pair)) elAtts.list) := by
  have h := openElements_eq openChild elAtts h0
  refine ⟨⟨_, h⟩, ?_, fun ps hps htext => ?_⟩
  · rw [h]
    cases openEach openChild (firstValue (parseAttributes annot.length annot)) elAtts.list with
    | none => exact fun h => nomatch h
    | some _ => exact fun h => nomatch h
  · rw [h, htext, parseAttributes_pairsText hps le_rfl]

end Claim

/-- A child that keeps the values it is opened with. -/
def logValue (values : List (List UInt8)) (value : List UInt8) : Option (List (List UInt8)) := some (values ++ [value])

/-- The children `a` and `b`. -/
def twoChildren : ElementAttributes (List (List UInt8)) where
  list := [([97], []), ([98], [])]
  nodup := by decide

/-- `b="&lt;" b=x`: `b` is opened with `<`, `a` with the empty string. -/
theorem openElements_repeated :
    (∃ value, openElements logValue twoChildren [98, 61, 34, 38, 108, 116, 59, 34, 32, 98, 61, 120] =
      stopped (openEach logValue value twoChildren.list)) ∧
    openElements logValue twoChildren [98, 61, 34, 38, 108, 116, 59, 34, 32, 98, 61, 120] ≠ .error .beyondTheEnd ∧
    ∀ ps, IdsEnd ps → [98, 61, 34, 38, 108, 116, 59, 34, 32, 98, 61, 120] = pairsText ps →
      openElements logValue twoChildren [98, 61, 34, 38, 108, 116, 59, 34, 32, 98, 61, 120] =
        stopped (openEach logValue (firstValue (ps.map WrittenPair.pair)) twoChildren.list) :=
  openElements_exact logValue twoChildren (by decide)

/-- `name=id` without blanks. -/
def idPair (name value : UInt8) (hname : clXmlIsNameChar name = true) (hvalue : clXmlIsNameChar value = true) : WrittenPair where
  name := [name]
  value := [value]
  quote := none
  nonempty := by simp
  nameChars := by simpa using hname
  blanks := by simp
  quoted := by simp
  unquoted := by simpa using hvalue

/-- Without a blank between them, `a=x` and `b=y` are read as `a=xb`. -/
theorem openElements_run_together : ¬∀ ps : List WrittenPair, 0 ∉ pairsText ps →
    openElements logValue twoChildren (pairsText ps) =
      stopped (openEach logValue (firstValue (ps.map WrittenPair.pair)) twoChildren.list) := by
  intro h
  have htext : pairsText [idPair 97 120 (by decide) (by decide), idPair 98 121 (by decide) (by decide)] =
      [97, 61, 120, 98, 61, 121] := rfl
  have hrun := h [idPair 97 120 (by decide) (by decide), idPair 98 121 (by decide) (by decide)] (by decide)
  rw [openElements_eq logValue twoChildren (by decide), htext] at hrun
  revert hrun
  decide

end CWB.AttributeScan
