import GraphClustering.Proofs.Cluster.Placement

/-!
# A sign for each vertex

The vectors of a power iteration keep the length of the start vector, so the
spectral bisector gives a sign to each vertex of a view that it splits.
-/

namespace GraphClustering

variable {α : Type} {n : Nat} {v : View α}

theorem Vector.length_of_broadcast {β γ δ : Type} {f : β → γ → δ} {xs : List β} {ys : List γ}
    {zs : List δ} (hx : xs.length = n) (hy : ys.length = n) (h : broadcast f xs ys = .ok zs) :
    zs.length = n := by
  rw [broadcast_of_length_eq f (hx.trans hy.symm)] at h
  cases h
  rw [List.length_zipWith, hx, hy, Nat.min_self]

theorem Matrix.size_rows_ofEdges (n : Nat) (es : List (Edge α)) :
    (ofEdges n es).rows.size = n := by
  suffices ∀ rows : Array (List (Nat × α)), (es.foldl (fun rows e =>
      rows.modify e.source.toNat fun row => (e.target, e.weight) :: row) rows).size = rows.size by
    rw [ofEdges, Array.size_map, this, Array.size_replicate]
  induction es with
  | nil =>
      intro rows
      rfl
  | cons e es ih =>
      intro rows
      rw [List.foldl_cons, ih, Array.size_modify]

theorem View.size_rows_of_adjacency {m : Matrix α} (h : v.adjacency = .ok m) :
    m.rows.size = v.order := by
  rw [adjacency] at h
  cases hb : v.batches none v.workers with
  | error e =>
      rw [hb] at h
      cases h
  | ok bs =>
      rw [hb] at h
      cases h
      exact Matrix.size_rows_ofEdges _ _

variable [Scalar α] {x y z : List α}

theorem Vector.length_scale (c : α) (x : List α) : (scale c x).length = x.length :=
  List.length_map _

theorem Vector.inner_of_length (hx : x.length = n) (hy : y.length = n) :
    inner x y = .ok (dot x y) := by
  rw [inner, if_pos (hx.trans hy.symm)]

namespace NormalizedAdjacency

variable {a : NormalizedAdjacency α} {m : Matrix α}

/-- An operator on vectors of length `n`. -/
structure Square (a : NormalizedAdjacency α) (n : Nat) : Prop where
  rows : a.matrix.rows.size = n
  inverseRoots : a.inverseRoots.length = n
  trivial : a.trivial.length = n

theorem square_ofMatrix (h : m.rows.size = n) : (ofMatrix m).Square n where
  rows := h
  inverseRoots := by simp [ofMatrix, degrees, Matrix.rowSums, h]
  trivial := by simp [ofMatrix, degrees, Matrix.rowSums, Vector.scale, h]

theorem Square.length_deflate (ha : a.Square n) (hx : x.length = n) (h : a.deflate x = .ok y) :
    y.length = n := by
  obtain ⟨c, -, h⟩ := exists_of_bind_eq_ok h
  exact Vector.length_of_broadcast hx (by rw [List.length_map, ha.trivial]) h

/-- The image has the length of the operator, whatever the length of the vector. -/
theorem Square.length_apply (ha : a.Square n) (h : a.apply x = .ok y) : y.length = n := by
  obtain ⟨scaled, -, h⟩ := exists_of_bind_eq_ok h
  obtain ⟨image, himage, h⟩ := exists_of_bind_eq_ok h
  obtain ⟨balanced, hbalanced, h⟩ := exists_of_bind_eq_ok h
  refine ha.length_deflate (Vector.length_of_broadcast ha.inverseRoots ?_ hbalanced) h
  rw [Matrix.mulVec] at himage
  split at himage
  · cases himage
    rw [Array.length_toList, Matrix.product, Array.size_map, ha.rows]
  · cases himage

end NormalizedAdjacency

namespace PowerIteration

variable {operator : List α → Except Fault (List α)} {limit : Number}

/-- The vector `y` with norm one and not against `x`; the vector `x` itself if `y` has norm
zero. -/
def aligned (x y : List α) : List α :=
  if Scalar.isZero (Vector.norm y) then x
  else
    let unit := Vector.scale (Vector.norm y) y
    if Scalar.less (Vector.dot unit x) 0 then unit.map fun a => -a else unit

theorem length_aligned (hx : x.length = n) (hy : y.length = n) : (aligned x y).length = n := by
  rw [aligned]
  split
  · exact hx
  · dsimp only
    split
    · rw [List.length_map, Vector.length_scale, hy]
    · rw [Vector.length_scale, hy]

/-- Vectors of one length always have a next one. -/
theorem next_eq (hx : x.length = n) (hy : y.length = n) : next x y = .ok (aligned x y) := by
  rw [next, aligned]
  dsimp only
  split
  · rfl
  · rw [Vector.inner_of_length (Vector.length_scale _ _) (hx.trans hy.symm)]
    rfl

theorem length_of_steps (hop : ∀ x y, x.length = n → operator x = .ok y → y.length = n)
    {fuel calls : Nat} {trail : SignTrail} (hx : x.length = n)
    (h : (steps operator limit fuel calls trail x).outcome = .ok z) : z.length = n := by
  induction fuel generalizing calls trail x with
  | zero => cases h
  | succ fuel ih =>
      rw [steps] at h
      split at h
      · cases h
      · rename_i y trail' advanced
        obtain ⟨image, himage, advanced⟩ := exists_of_bind_eq_ok advanced
        obtain ⟨y', hy', advanced⟩ := exists_of_bind_eq_ok advanced
        obtain ⟨observed, -, advanced⟩ := exists_of_bind_eq_ok advanced
        cases advanced
        have length := hop x image hx himage
        cases (next_eq hx length).symm.trans hy'
        have hy := length_aligned hx length
        split at h
        · cases h
          exact hy
        · exact ih hy h

theorem length_of_run (hop : ∀ x y, x.length = n → operator x = .ok y → y.length = n)
    {trail : SignTrail} (hx : x.length = n) (h : (run operator trail x limit).outcome = .ok z) :
    z.length = n := by
  rw [run] at h
  split at h
  · cases h
  · split at h
    · exact length_of_steps hop ((Vector.length_scale _ _).trans hx) h
    · cases h

end PowerIteration

theorem StartVector.length_sample (g : Generator) (n : Nat) : (sample g n).length = n := by
  induction n generalizing g with
  | zero => rfl
  | succ n ih => rw [sample, List.length_cons, ih]

theorem StartVector.length_of_ofSeed {seed : Option Number} {x : List Float}
    (h : ofSeed seed n = .ok x) : x.length = n := by
  rw [ofSeed] at h
  split at h
  · cases h
  · split at h
    · cases h
    · cases h
      exact length_sample _ _

namespace Bisection

theorem length_of_attempt {s : Settings} {v : View Float} {asked : Option Number}
    {x : List Float} (h : (attempt s v asked).vector = .ok x) : x.length = v.order := by
  rw [attempt] at h
  split at h
  · cases h
    exact List.length_replicate
  · split at h
    · cases h
    · rename_i m hm
      have square := NormalizedAdjacency.square_ofMatrix (View.size_rows_of_adjacency hm)
      dsimp only at h
      split at h
      · cases h
      · rename_i start hstart
        obtain ⟨seeded, hseeded, hstart⟩ := exists_of_bind_eq_ok hstart
        have hlength := square.length_deflate (StartVector.length_of_ofSeed hseeded) hstart
        exact PowerIteration.length_of_run (fun _ _ _ => square.length_apply) hlength h

/-- The spectral bisector gives a sign to each vertex. -/
theorem length_of_spectral {s : Settings} {v : View Float} {positive : List Bool}
    (h : spectral s v = .ok (.signs positive)) : positive.length = v.order := by
  rw [spectral] at h
  cases hx : (attempt s v (some s.maxIterations)).vector with
  | ok x =>
      rw [hx, verdict] at h
      cases h
      rw [List.length_map, length_of_attempt hx]
  | error e =>
      rw [hx] at h
      cases e <;> cases h

end Bisection

/-- Clustering with given settings gives a sign to each vertex of a view that it splits. -/
theorem signsEach_clustering (s : Settings) (metric : Metric Float) (graph : View Float) :
    (s.clustering metric graph).SignsEach := by
  intro v positive h
  exact Bisection.length_of_spectral h

end GraphClustering
