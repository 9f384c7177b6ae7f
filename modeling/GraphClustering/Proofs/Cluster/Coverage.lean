import GraphClustering.Proofs.Cluster.Settling

/-!
# Every vertex is assigned once

The queue phase gives every vertex of a view to one cluster, and postprocessing
neither loses nor multiplies vertices, however often it sweeps over the tree.
-/

namespace GraphClustering

open Forest Relation

namespace Clustering

variable {α : Type} {k : Clustering α} {v : View α} {p : Progress α} {l : Ledger α}

/-- The first cluster is the root of the tree that the queue phase leaves, and the
tree holds the vertices of the view. -/
theorem Sound.rooted (h : Sound k v l []) (drained : l.progress.queue = []) :
    l.progress.forest.Rooted 0 ∧ (l.progress.forest.aggregate 0).Perm v.vertexList := by
  have account := h.account
  rw [drained] at account
  refine ⟨⟨account.wellFormed, h.parentless, h.size_pos⟩, ?_⟩
  rw [← verticesOf_of_getElem? h.root]
  exact account.aggregate_perm h.size_pos

variable [Scalar α]

theorem rooted_of_queuePhase (hk : Setting.Rule.atLeastOne.refuses k.minSize = false)
    (hsigns : k.SignsEach) (hv : v.vertexList.Nodup) {stage : Stage}
    (h : k.queuePhase v stage = .ok p) :
    p.forest.Rooted 0 ∧ (p.forest.aggregate 0).Perm v.vertexList := by
  rw [queuePhase_eq] at h
  obtain ⟨l, hl, rfl⟩ := exists_of_map_eq_ok h
  obtain ⟨sound, drained⟩ := recordedPhase_sound hk hsigns hv hl
  exact sound.rooted drained

theorem run_of_queuePhase (h : k.queuePhase v .whole = .ok p) :
    let r := Postprocessing.run (Postprocessing.passes k.guard k.minOverlap) k.passLimit 0 p.forest
    k.run v = r.2.map fun _ => { p with forest := r.1 } := by
  rw [run, h]
  rfl

theorem exists_of_run (h : k.run v = .ok p) : ∃ l, k.recordedPhase v .whole = .ok l ∧
    p.forest = (Postprocessing.run (Postprocessing.passes k.guard k.minOverlap) k.passLimit 0
      l.progress.forest).1 := by
  obtain ⟨q, hq, h⟩ := exists_of_bind_eq_ok h
  rw [queuePhase_eq] at hq
  cases hl : k.recordedPhase v .whole with
  | error e => rw [hl] at hq; cases hq
  | ok l =>
      rw [hl] at hq
      cases hq
      refine ⟨l, rfl, ?_⟩
      dsimp only at h
      cases hr : (Postprocessing.run (Postprocessing.passes k.guard k.minOverlap) k.passLimit 0
          l.progress.forest).2 with
      | error e => rw [hr] at h; cases h
      | ok b => rw [hr] at h; cases h; rfl

/-- If a clustering returns a tree, each vertex of the view occurs once in the
remainders of the clusters that are reached from the root, and no other id occurs
there. -/
theorem run_covers (hk : Setting.Rule.atLeastOne.refuses k.minSize = false)
    (hsigns : k.SignsEach) (hv : v.vertexList.Nodup) (h : k.run v = .ok p) :
    (p.forest.walk 0).Nodup ∧
    (∀ c, c ∈ p.forest.walk 0 ↔ ReflTransGen (fun a b => b ∈ p.forest.children a) 0 c) ∧
    ∀ id, ((p.forest.walk 0).flatMap p.forest.remainder).count id =
      if id ∈ v.vertexList then 1 else 0 := by
  obtain ⟨l, hl, hp⟩ := exists_of_run h
  obtain ⟨sound, drained⟩ := recordedPhase_sound hk hsigns hv hl
  obtain ⟨hf, perm⟩ := sound.rooted drained
  have rewrites := Postprocessing.rewrites_run hf k.guard k.minOverlap k.passLimit
  rw [← hp] at rewrites
  have hg := rooted_of_rewrites hf rewrites
  refine ⟨nodup_walk hg.toWellFormed hg.lt_size, fun c =>
    mem_walk_iff_reachable hg.toWellFormed hg.lt_size, ?_⟩
  intro id
  obtain ⟨le, mem⟩ := conserves_of_rewrites hf rewrites id
  rw [perm.mem_iff, ← List.count_pos_iff] at mem
  rw [perm.count_eq, hv.count] at le
  change (p.forest.aggregate 0).count id = _
  split at le
  · rename_i hid
    have some := mem.mpr hid
    rw [if_pos hid]
    omega
  · rename_i hid
    rw [if_neg hid]
    omega

theorem run_covers_pairs : ∃ p, halving.run pairs = .ok p ∧ (p.forest.walk 0).length = 3 ∧
    ∀ id, ((p.forest.walk 0).flatMap p.forest.remainder).count id =
      if id ∈ pairs.vertexList then 1 else 0 := by
  obtain ⟨p, hp, three⟩ : ∃ p, halving.run pairs = .ok p ∧ (p.forest.walk 0).length = 3 :=
    ⟨_, by cbv, by cbv⟩
  exact ⟨p, hp, three, (run_covers (by cbv) signsEach_halving nodup_pairs hp).2.2⟩

end Clustering

end GraphClustering
