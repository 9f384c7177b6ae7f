import GraphClustering.Settings.Basic
import Mathlib

/-!
# Values that pass

A draft whose values all pass their checks gives settings with these values.  The
defaults pass, and a passing draft passes with any value in place of one of its own
that the rule of the setting does not refuse.
-/

namespace GraphClustering.Settings

variable {d : Draft} {f : Setting} {x : Number}

/-- All values of a draft pass their checks. -/
def Draft.Passes (d : Draft) : Prop :=
  ∀ f, checkOne d f = .ok ()

theorem checkOne_of_number (hf : d f = .number x) (h : f.rule.refuses x = false) :
    checkOne d f = .ok () := by
  unfold checkOne
  rw [hf]
  exact if_neg (Bool.eq_false_iff.mp h)

theorem passes_defaults : defaults.Passes := by
  intro f
  cases f with
  | numWorkers => rfl
  | _ => exact checkOne_of_number rfl (by decide +kernel)

theorem Draft.Passes.set (h : d.Passes) (hx : f.rule.refuses x = false) :
    (d.set f (.number x)).Passes := by
  intro g
  by_cases hg : g = f
  · subst hg
    exact checkOne_of_number (by rw [Draft.set, if_pos rfl]) hx
  · have same : d.set f (.number x) g = d g := by rw [Draft.set, if_neg hg]
    rw [← h g]
    unfold checkOne
    rw [same]

/-- The settings with the values of a draft. -/
def Draft.settings (d : Draft) (allowDevice : Bool) : Settings where
  minClusterSize := d.number .minClusterSize
  minClusterLikelihood := d.number .minClusterLikelihood
  minAncestorOverlap := d.number .minAncestorOverlap
  trailSize := d.number .trailSize
  convergenceThreshold := d.number .convergenceThreshold
  maxIterations := d.number .maxIterations
  numWorkers := d.number? .numWorkers
  randomSeed := d.number? .randomSeed
  maxPostprocessingPasses := d.number .maxPostprocessingPasses
  allowDevice := allowDevice

theorem Draft.Passes.ofDraft_eq (h : d.Passes) (allowDevice : Bool) :
    ofDraft d allowDevice = .ok (d.settings allowDevice) := by
  have checks : ∀ fs : List Setting, fs.forM (checkOne d) = .ok () := by
    intro fs
    induction fs with
    | nil => rfl
    | cons f fs ih =>
        rw [List.forM, h f]
        exact ih
  rw [ofDraft, checks]
  rfl

end GraphClustering.Settings
