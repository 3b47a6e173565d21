import CWB.Spec.ClAccess
import CWB.Spec.Cut

/-! What an alignment constraint asks for. The loop of `simulate` is repeated here with the cut that it leaves, which
`check_alignment_constraints` takes for its result: 1 at the start, and 0 when a match has been found. -/

namespace CWB

variable {C A R : Type}

namespace EvalEnv

variable (env : EvalEnv C A R)

/-- The search for a sub-query at `p`: all initial transitions at once, within the search context, and otherwise up to
the end of the corpus. -/
def subSearch (p : ℤ) : Search := ⟨0, min (env.calculateRightboundary p) (env.corpus.size - 1), none, p⟩

/-- The simulation of a sub-query finds a match that starts at `p`. -/
def FoundFrom (p : ℤ) : Prop :=
  p < env.corpus.size ∧ (env.subSearch p).boundary ≠ -1 ∧ ∃ fuel sim,
    env.simulateFrom 0 (env.subSearch p).boundary none p fuel = some sim ∧ reports p sim = true

/-- A sub-query as `check_alignment_constraints` evaluates it: on the whole of a corpus, without elements of zero width, and
not accepting the empty string. -/
structure SubQuery : Prop where
  whole : env.queryCorpus.range.map Match.pair = [(0, (env.corpus.size : ℤ) - 1)]
  tokens : ∀ p < env.dfa.maxInput, (env.patternlist p).zeroWidth = false
  nonempty : env.dfa.final 0 = false

end EvalEnv

namespace Cqi

/-- The beads of an alignment: their regions in the source and in the target corpus. -/
def AlignData.beads : AlignData → List ((ℤ × ℤ) × (ℤ × ℤ))
  | .align boundaries _ =>
    boundaries.zipWith (fun b next => ((b.1, next.1 - 1), (b.2, next.2 - 1))) boundaries.tail
  | .xalign beads => beads

/-- The source regions are ascending. -/
def AlignData.Ascending : AlignData → Prop
  | .align boundaries _ => (∀ b ∈ boundaries, 0 ≤ b.1 ∧ b.1 < 2 ^ 31) ∧ boundaries.Pairwise fun b b' => b.1 < b'.1
  | .xalign beads =>
    (∀ b ∈ beads, 0 ≤ b.1.1 ∧ b.1.1 < 2 ^ 31 ∧ b.1.1 ≤ b.1.2) ∧ beads.Pairwise fun b b' => b.1.2 < b'.1.1

end Cqi

namespace AlignmentConstraint

/-- A constraint on an alignment attribute, as `cl_cpos2alg` and `cl_alg2cpos` look up its beads. -/
def onAttribute (env : EvalEnv C A R) (data : Cqi.AlignData) (negated : Bool) : AlignmentConstraint C A R where
  env := env
  cpos2alg cpos :=
    let alg := (Cqi.clCpos2alg (.align { data, alignData := true }) cpos).1
    if alg < 0 then none else some alg
  alg2cpos alg := (Cqi.clAlg2cpos (.align { data, alignData := true }) alg).1.map fun bead => bead.2.2
  negated := negated

end AlignmentConstraint

/-- An alignment constraint of a query: the sub-query, the alignment and whether it is negated. -/
structure AlignedQuery (C A R : Type) where
  env : EvalEnv C A R
  data : Cqi.AlignData
  negated : Bool

namespace AlignedQuery

variable (q : AlignedQuery C A R)

def constraint : AlignmentConstraint C A R := .onAttribute q.env q.data q.negated

/-- Both ends of the match are aligned, and some position, or none, of the region from the bead of the one to the bead of
the other is the start of a match of the sub-query. -/
def Passes (m : Match) : Prop :=
  ∃ s ∈ q.data.beads, ∃ t ∈ q.data.beads, (s.1.1 ≤ m.start ∧ m.start ≤ s.1.2) ∧ (t.1.1 ≤ m.stop ∧ m.stop ≤ t.1.2) ∧
    0 ≤ s.2.1 ∧ s.2.1 ≤ t.2.2 ∧
      ((∃ p, s.2.1 ≤ p ∧ p ≤ t.2.2 ∧ q.env.FoundFrom p) ↔ q.negated = false)

end AlignedQuery

end CWB
