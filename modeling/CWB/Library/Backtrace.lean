import Mathlib.Data.List.Chain
import Mathlib.Tactic.Linarith

/-! Tables of a dynamic programming in which every cell has a value and a link to the cell it
was reached from: what a walk back over the links says about the values. -/

namespace Backtrace

open List

variable {P : Type*}

/-- A cell with a positive value is reached by a step from its link, and the cost of this step
makes the difference between both values. -/
def Linked (value : P → ℤ) (link : P → P) (origin : P) (cost : P → P → ℤ) (Step : P → P → Prop) : Prop :=
  ∀ c, 0 < value c → c ≠ origin → Step (link c) c ∧ value c = value (link c) + cost (link c) c

/-- Every point but the origin is preceded by its link. -/
def Walk (link : P → P) (origin : P) (path : List P) : Prop :=
  path.IsChain fun p c => c ≠ origin ∧ p = link c

variable {value : P → ℤ} {link : P → P} {origin : P} {cost : P → P → ℤ} {Step : P → P → Prop} {path : List P}

theorem isChain_and {α : Type*} {R S : α → α → Prop} {l : List α} (hr : l.IsChain R) (hs : l.IsChain S) :
    l.IsChain fun p c => R p c ∧ S p c := by
  rw [isChain_iff_getElem] at hr hs ⊢
  exact fun i hi => ⟨hr i hi, hs i hi⟩

/-- Where costs are the differences, values do not fall along a path from the origin. -/
theorem positive_of_costs (hcost : ∀ p c, 0 ≤ cost p c) (horigin : 0 < value origin)
    (hhead : path.head? = some origin) (hchain : path.IsChain fun p c => value c - value p = cost p c) :
    ∀ p ∈ path, 0 < value p := by
  apply hchain.induction (fun p => 0 < value p)
  · intro p c heq hp
    have hc := hcost p c
    omega
  · intro hne
    rw [head_eq_iff_head?_eq_some hne |>.mpr hhead]
    exact horigin

/-- Where all values are positive, a walk consists of steps, and their costs are the differences. -/
theorem Linked.costs (hl : Linked value link origin cost Step) (hw : Walk link origin path)
    (hpos : ∀ p ∈ path, 0 < value p) : path.IsChain fun p c => Step p c ∧ value c - value p = cost p c := by
  induction path with
  | nil => exact isChain_nil
  | cons p path ih =>
    obtain ⟨hhead, htail⟩ := isChain_cons.mp hw
    apply isChain_cons.mpr
    refine ⟨fun c hc => ?_, ih htail fun q hq => hpos q (mem_cons_of_mem p hq)⟩
    obtain ⟨hne, rfl⟩ := hhead c hc
    obtain ⟨hstep, hval⟩ := hl c (hpos c (mem_cons_of_mem _ (mem_of_mem_head? hc))) hne
    exact ⟨hstep, by omega⟩

/-- A walk is a path of steps with the differences as costs if and only if its values are positive. -/
theorem Linked.costs_iff (hl : Linked value link origin cost Step) (hcost : ∀ p c, 0 ≤ cost p c)
    (horigin : 0 < value origin) (hw : Walk link origin path) (hhead : path.head? = some origin) :
    (path.IsChain fun p c => Step p c ∧ value c - value p = cost p c) ↔ ∀ p ∈ path, 0 < value p :=
  ⟨fun hchain => positive_of_costs hcost horigin hhead (hchain.imp fun _ _ h => h.2), fun hpos => hl.costs hw hpos⟩

theorem Walk.link_mem (hw : Walk link origin path) {c : P} (hc : c ∈ path.tail) : link c ∈ path := by
  induction path with
  | nil => cases hc
  | cons p path ih =>
    obtain ⟨hhead, htail⟩ := isChain_cons.mp hw
    cases path with
    | nil => cases hc
    | cons p' path =>
      obtain rfl | hmem := mem_cons.mp hc
      · rw [← (hhead c rfl).2]
        exact mem_cons_self
      · exact mem_cons_of_mem p (ih htail hmem)

/-- If no cell with a value on a walk links to one without, a walk back from a cell with a value
meets only such cells. -/
theorem Walk.positive (hw : Walk link origin path)
    (hlink : ∀ c ∈ path, c ≠ origin → 0 < value c → 0 < value (link c)) (hlast : ∀ p ∈ path.getLast?, 0 < value p) :
    ∀ p ∈ path, 0 < value p := by
  induction path with
  | nil => exact fun p hp => by cases hp
  | cons p path ih =>
    obtain ⟨hhead, htail⟩ := isChain_cons.mp hw
    cases path with
    | nil =>
      intro q hq
      rw [mem_singleton.mp hq]
      exact hlast p rfl
    | cons c path =>
      have hrest := ih htail (fun c' hc' => hlink c' (mem_cons_of_mem p hc'))
        (fun q hq => hlast q (by rw [getLast?_cons_cons]; exact hq))
      intro q hq
      obtain rfl | hmem := mem_cons.mp hq
      · obtain ⟨hne, heq⟩ := hhead c rfl
        rw [heq]
        exact hlink c (mem_cons_of_mem q mem_cons_self) hne (hrest c mem_cons_self)
      · exact hrest q hmem

/-! ## Optimal paths -/

/-- The costs of the steps along a path. -/
def total (cost : P → P → ℤ) : List P → ℤ
  | p :: c :: path => cost p c + total cost (c :: path)
  | _ => 0

/-- Within the table no step leads to a higher value than the one that its end has. -/
def Dominates (value : P → ℤ) (cost : P → P → ℤ) (Step : P → P → Prop) (In : P → Prop) : Prop :=
  ∀ p c, In p → In c → Step p c → value p + cost p c ≤ value c

/-- Along a rising path all points lie between both ends. -/
theorem mem_Icc_of_isChain [Preorder P] (hchain : path.IsChain (· ≤ ·)) {first last : P} (hhead : path.head? = some first)
    (hlast : path.getLast? = some last) : ∀ p ∈ path, first ≤ p ∧ p ≤ last := by
  intro p hp
  have hpair := isChain_iff_pairwise.mp hchain
  obtain ⟨tail, rfl⟩ := head?_eq_some_iff.mp hhead
  obtain ⟨front, heq⟩ := getLast?_eq_some_iff.mp hlast
  refine ⟨?_, ?_⟩
  · obtain rfl | hmem := mem_cons.mp hp
    · exact le_rfl
    · exact (pairwise_cons.mp hpair).1 p hmem
  · rw [heq] at hp hpair
    obtain hmem | hmem := mem_append.mp hp
    · exact (pairwise_append.mp hpair).2.2 p hmem last (mem_singleton_self last)
    · exact (mem_singleton.mp hmem).le

theorem total_map {Q : Type*} (f : Q → P) (cost : P → P → ℤ) (path : List Q) :
    total cost (path.map f) = total (fun p c => cost (f p) (f c)) path := by
  induction path with
  | nil => rfl
  | cons p path ih =>
    cases path with
    | nil => rfl
    | cons c path => exact congrArg (cost (f p) (f c) + ·) ih

theorem Dominates.total_le {In : P → Prop} (h : Dominates value cost Step In) (hin : ∀ p ∈ path, In p)
    (hchain : path.IsChain Step) {first last : P} (hhead : path.head? = some first) (hlast : path.getLast? = some last) :
    value first + total cost path ≤ value last := by
  induction path generalizing first with
  | nil => cases hhead
  | cons p path ih =>
    cases hhead
    cases path with
    | nil =>
      cases hlast
      exact (add_zero _).le
    | cons c path =>
      obtain ⟨hstep, htail⟩ := isChain_cons_cons.mp hchain
      have hrest := ih (fun q hq => hin q (mem_cons_of_mem _ hq)) htail rfl (by rwa [getLast?_cons_cons] at hlast)
      have hle := h p c (hin p mem_cons_self) (hin c (by simp)) hstep
      rw [total]
      omega

/-- Where costs are the differences, they sum up to the difference between both ends. -/
theorem total_eq (hchain : path.IsChain fun p c => value c - value p = cost p c) {first last : P}
    (hhead : path.head? = some first) (hlast : path.getLast? = some last) :
    value first + total cost path = value last := by
  induction path generalizing first with
  | nil => cases hhead
  | cons p path ih =>
    cases hhead
    cases path with
    | nil =>
      cases hlast
      exact add_zero _
    | cons c path =>
      obtain ⟨hstep, htail⟩ := isChain_cons_cons.mp hchain
      have hrest := ih htail rfl (by rwa [getLast?_cons_cons] at hlast)
      rw [total]
      omega

end Backtrace
