import GraphClustering.Proofs.Cluster.Failures
import GraphClustering.Proofs.Spectral.Signs

/-!
# What can stop the spectral bisector

All vectors of a power iteration have one length, so no operation on them is refused
(`NormalizedAdjacency.Square.exists_apply`, `PowerIteration.next_eq`).  Apart from
not converging, which is an answer, the bisector fails only for a start vector of norm
zero, for a seed below zero and for want of workers (`Bisection.failure_of_spectral`).
-/

namespace GraphClustering

variable {α : Type} {n : Nat} {v : View α} {e : Fault}

theorem View.failure_of_adjacency (h : v.adjacency = .error e) : v.Understaffed e := by
  rw [adjacency] at h
  cases found : v.batches none v.workers with
  | error e' =>
      rw [found] at h
      cases h
      exact failure_of_batches found
  | ok bs => rw [found] at h; cases h

theorem View.columns_of_adjacency {m : Matrix α} (h : v.adjacency = .ok m) :
    m.columns = v.order := by
  obtain ⟨bs, -, rfl⟩ := exists_of_map_eq_ok h
  rfl

theorem Vector.exists_broadcast {β γ δ : Type} (f : β → γ → δ) {xs : List β} {ys : List γ}
    (hx : xs.length = n) (hy : ys.length = n) :
    ∃ zs, broadcast f xs ys = .ok zs ∧ zs.length = n :=
  ⟨_, broadcast_of_length_eq f (hx.trans hy.symm), by
    rw [List.length_zipWith, hx, hy, Nat.min_self]⟩

variable [Scalar α] {x y : List α}

namespace NormalizedAdjacency

variable {a : NormalizedAdjacency α}

theorem Square.exists_deflate (ha : a.Square n) (hx : x.length = n) :
    ∃ y, a.deflate x = .ok y ∧ y.length = n := by
  rw [deflate, Vector.inner_of_length ha.trivial hx]
  exact Vector.exists_broadcast _ hx (by rw [List.length_map, ha.trivial])

/-- The operator answers for every vector of its length. -/
theorem Square.exists_apply (ha : a.Square n) (columns : a.matrix.columns = n)
    (hx : x.length = n) : ∃ y, a.apply x = .ok y ∧ y.length = n := by
  obtain ⟨scaled, hscaled, length⟩ :=
    Vector.exists_broadcast (fun p q : α => p * q) ha.inverseRoots hx
  have image : a.matrix.mulVec scaled.toArray = .ok (a.matrix.product scaled.toArray) := by
    rw [Matrix.mulVec, if_pos (by rw [List.size_toArray, length, columns])]
  have rows : (a.matrix.product scaled.toArray).toList.length = n := by
    rw [Array.length_toList, Matrix.product, Array.size_map, ha.rows]
  obtain ⟨balanced, hbalanced, length⟩ :=
    Vector.exists_broadcast (fun p q : α => p * q) ha.inverseRoots rows
  rw [apply, hscaled]
  simp only [bind, Except.bind, image, hbalanced]
  exact ha.exists_deflate length

end NormalizedAdjacency

namespace PowerIteration

variable {operator : List α → Except Fault (List α)} {limit : Number}

theorem exists_observe {trail : SignTrail} (ht : trail.streaks.length = n) (hx : x.length = n)
    (hy : y.length = n) :
    ∃ trail', trail.observe x y = .ok trail' ∧ trail'.streaks.length = n := by
  obtain ⟨same, hsame, length⟩ := Vector.exists_broadcast
    (fun a b : α => SignTrail.positive a == SignTrail.positive b) hx hy
  obtain ⟨streaks, hstreaks, length⟩ := Vector.exists_broadcast
    (fun c (s : Nat) => if c then s + 1 else 0) length ht
  rw [SignTrail.observe, hsame]
  simp only [bind, Except.bind, hstreaks]
  exact ⟨_, rfl, length⟩

/-- An iteration with an operator that answers only fails to converge. -/
theorem failure_of_steps
    (answers : ∀ x, x.length = n → ∃ y, operator x = .ok y ∧ y.length = n)
    {fuel calls : Nat} {trail : SignTrail} (ht : trail.streaks.length = n) (hx : x.length = n)
    (h : (steps operator limit fuel calls trail x).outcome = .error e) :
    e = .notConverged limit := by
  induction fuel generalizing calls trail x with
  | zero =>
      cases h
      rfl
  | succ fuel ih =>
      obtain ⟨image, himage, length⟩ := answers x hx
      have hy := length_aligned hx length
      obtain ⟨trail', htrail, observed⟩ := exists_observe ht hx hy
      rw [steps] at h
      simp only [bind, Except.bind, himage, next_eq hx length, htrail] at h
      split at h
      · cases h
      · exact ih observed hy h

theorem failure_of_run
    (answers : ∀ x, x.length = n → ∃ y, operator x = .ok y ∧ y.length = n)
    {trail : SignTrail} (ht : trail.streaks.length = n) (hx : x.length = n) {m : Int}
    (hm : limit.toInt? = some m) (h : (run operator trail x limit).outcome = .error e) :
    e = .zeroStart ∨ e = .notConverged limit := by
  rw [run] at h
  split at h
  · cases h
    exact .inl rfl
  · rw [hm] at h
    refine .inr (failure_of_steps answers ht ?_ h)
    rw [Vector.length_scale, hx]

end PowerIteration

theorem StartVector.ofSeed_int (z : Int) (n : Nat) : ofSeed (some (.int z)) n =
    if z < 0 then .error .negativeSeed else .ok (sample (.ofSeed z.toNat) n) :=
  rfl

namespace Bisection

variable {s : Settings} {v : View Float} {z m : Int}

theorem limit_some_self (s : Settings) : limit s (some s.maxIterations) = s.maxIterations := by
  rw [limit]
  split <;> rfl

theorem failure_of_attempt (hz : s.randomSeed = some (.int z))
    (hm : s.maxIterations.toInt? = some m)
    (h : (attempt s v (some s.maxIterations)).vector = .error e) :
    e = .notConverged s.maxIterations ∨ e = .zeroStart ∨ e = .negativeSeed ∧ z < 0 ∨
      v.Understaffed e := by
  rw [attempt] at h
  split at h
  · cases h
  · split at h
    · rename_i adjacency
      cases h
      exact .inr (.inr (.inr (View.failure_of_adjacency adjacency)))
    · rename_i matrix adjacency
      have square := NormalizedAdjacency.square_ofMatrix (View.size_rows_of_adjacency adjacency)
      have columns := View.columns_of_adjacency adjacency
      rw [hz, StartVector.ofSeed_int, limit_some_self] at h
      dsimp only at h
      split_ifs at h with negative
      · cases h
        exact .inr (.inr (.inl ⟨rfl, negative⟩))
      · obtain ⟨start, hstart, length⟩ :=
          square.exists_deflate (StartVector.length_sample (.ofSeed z.toNat) v.order)
        simp only [bind, Except.bind, hstart] at h
        have fresh : (SignTrail.fresh v.order s.trailSize s.convergenceThreshold).streaks.length =
            v.order := List.length_replicate
        rcases PowerIteration.failure_of_run (fun x hx => square.exists_apply columns hx) fresh
          length hm h with zero | unsettled
        · exact .inr (.inl zero)
        · exact .inl unsettled

/-- The bisector fails only for a start vector of norm zero, a seed below zero or want of
workers. -/
theorem failure_of_spectral (hz : s.randomSeed = some (.int z))
    (hm : s.maxIterations.toInt? = some m) (h : spectral s v = .error e) :
    e = .zeroStart ∨ e = .negativeSeed ∧ z < 0 ∨ v.Understaffed e := by
  rw [spectral] at h
  cases hx : (attempt s v (some s.maxIterations)).vector with
  | ok x =>
      rw [hx] at h
      cases h
  | error e' =>
      rw [hx] at h
      rcases failure_of_attempt hz hm hx with rfl | rfl | ⟨rfl, negative⟩ | ⟨rfl, few⟩
      · cases h
      · cases h
        exact .inl rfl
      · cases h
        exact .inr (.inl ⟨rfl, negative⟩)
      · cases h
        exact .inr (.inr ⟨rfl, few⟩)

/-- A seed below zero makes the bisector fail on every view of several vertices. -/
theorem spectral_of_negative_seed (hz : s.randomSeed = some (.int z)) (negative : z < 0)
    (several : 2 ≤ v.order) (staffed : v.Staffed) :
    spectral s v = .error .negativeSeed := by
  rw [spectral, attempt, if_neg (by omega)]
  cases adjacency : v.adjacency with
  | error e => exact absurd staffed (View.failure_of_adjacency adjacency).2
  | ok matrix =>
      rw [hz, StartVector.ofSeed_int, if_pos negative]
      rfl

end Bisection

end GraphClustering
