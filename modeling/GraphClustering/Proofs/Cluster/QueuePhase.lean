import GraphClustering.Proofs.Cluster.Ledger
import GraphClustering.Proofs.Rational

/-!
# Working off the queue

The run is recorded together with the views that the clusters are made for
(`record`), which does not change it (`drain_eq_record`).  Every step keeps the
accounts of the clusters (`Ledger.Sound`), and the queue is empty at the end.
-/

namespace GraphClustering

/-- The progress of a run, and the views that its clusters were made for. -/
structure Ledger (α : Type) where
  progress : Progress α
  views : List (View α)

/-- The vertices that a task still has to place. -/
def Task.due {α : Type} (t : Task α) : Due :=
  (t.cluster, t.view.vertexList)

namespace Clustering

variable {α : Type} {k : Clustering α} {v u : View α} {l l' : Ledger α} {t : Task α}
variable {c : Placement α} {ps : List (Placement α)} {dues : List Due} {fuel : Nat} {e : Fault}

/-- Puts vertices where they go and notes the view of a new cluster. -/
def Placement.enter (t : Task α) (l : Ledger α) (c : Placement α) : Ledger α :=
  ⟨c.put t l.progress, l.views ++ c.made.toList⟩

/-- Takes a task from the queue and puts its vertices where they go. -/
def settle (t : Task α) (rest : List (Task α)) (l : Ledger α) (ps : List (Placement α)) :
    Ledger α :=
  ps.foldl (Placement.enter t) ⟨counted { l.progress with queue := rest } t.stage, l.views⟩

theorem progress_foldl_enter (t : Task α) (l : Ledger α) (ps : List (Placement α)) :
    (ps.foldl (Placement.enter t) l).progress = ps.foldl (Placement.put t) l.progress := by
  induction ps generalizing l with
  | nil => rfl
  | cons c ps ih => exact ih _

section Record

variable [Scalar α]

/-- Works off the queue and notes the view of every new cluster. -/
def record (k : Clustering α) : Nat → Ledger α → Except Fault (Ledger α)
  | 0, l => .ok l
  | fuel + 1, l => match l.progress.queue with
      | [] => .ok l
      | t :: rest => do k.record fuel (settle t rest l (← k.placements t))

/-- The recorded run for a view. -/
def recordedPhase (k : Clustering α) (v : View α) (stage : Stage) : Except Fault (Ledger α) :=
  k.record (taskBound v.order) ⟨start v stage, [v]⟩

/-- The record does not change the run. -/
theorem drain_eq_record (k : Clustering α) (fuel : Nat) (l : Ledger α) :
    k.drain fuel l.progress = (k.record fuel l).map Ledger.progress := by
  induction fuel generalizing l with
  | zero => rfl
  | succ fuel ih =>
      rw [drain, record]
      cases l.progress.queue with
      | nil => rfl
      | cons t rest =>
          simp only [perform_eq]
          cases k.placements t with
          | error e => rfl
          | ok ps =>
              simp only [Except.map, bind, Except.bind]
              rw [← progress_foldl_enter t ⟨_, l.views⟩, ih]
              rfl

theorem queuePhase_eq (k : Clustering α) (v : View α) (stage : Stage) :
    k.queuePhase v stage = (k.recordedPhase v stage).map Ledger.progress :=
  k.drain_eq_record _ ⟨start v stage, [v]⟩

/-- What every task keeps holds at the end of a run. -/
theorem record_induction {P : Ledger α → Prop}
    (step : ∀ l t rest ps, P l → l.progress.queue = t :: rest → k.placements t = .ok ps →
      P (settle t rest l ps)) (h : P l) (hl : k.record fuel l = .ok l') : P l' := by
  induction fuel generalizing l with
  | zero =>
      cases hl
      exact h
  | succ fuel ih =>
      rw [record] at hl
      split at hl
      · cases hl
        exact h
      · rename_i t rest hq
        obtain ⟨ps, hps, hl⟩ := exists_of_bind_eq_ok hl
        exact ih (step l t rest ps h hq hps) hl

end Record

/-! ## The invariant -/

/-- The accounts balance, with the tasks of the queue and `dues` still to be
placed; only the first cluster has no parent, and only its view may be small. -/
structure Sound (k : Clustering α) (v : View α) (l : Ledger α) (dues : List Due) : Prop where
  account : Account l.progress.forest l.views (dues ++ l.progress.queue.map Task.due)
  root : l.views[0]? = some v
  parentless : l.progress.forest.parent 0 = none
  notSmall : ∀ c u, c ≠ 0 → l.views[c]? = some u → k.isSmall u = false

theorem getElem?_append_toList {views : List (View α)} {o : Option (View α)} {i : Nat}
    (h : (views ++ o.toList)[i]? = some u) : views[i]? = some u ∨ o = some u := by
  rcases Nat.lt_or_ge i views.length with hi | hi
  · rw [List.getElem?_append_left hi] at h
    exact .inl h
  · rw [List.getElem?_append_right hi] at h
    exact .inr (Option.mem_toList.mp (List.mem_of_getElem? h))

namespace Sound

theorem size_pos (h : Sound k v l dues) : 0 < l.progress.forest.size := by
  rw [← h.account.length_views]
  exact (List.getElem?_eq_some_iff.mp h.root).1

/-- Entering a placement keeps the invariant. -/
theorem enter (h : Sound k v l ((t.cluster, Placement.vertices t c) :: dues))
    (notSmall : ∀ u, c.made = some u → k.isSmall u = false) :
    Sound k v (Placement.enter t l c) dues where
  account := by
    have account := h.account
    cases c with
    | owned ids =>
        rw [Placement.enter, Placement.made, Option.toList_none, List.append_nil]
        exact account.own
    | terminal u =>
        exact account.grow.own
    | queued stage u =>
        apply account.grow.of_perm
        simp only [Placement.enter, Placement.put, enqueue, List.map_append, ← List.append_assoc]
        exact List.perm_append_comm
    | again =>
        rw [Placement.enter, Placement.made, Option.toList_none, List.append_nil]
        apply account.of_perm
        simp only [Placement.put, List.map_append, ← List.append_assoc]
        exact List.perm_append_comm
  root := by
    rw [Placement.enter, List.getElem?_append_left (List.getElem?_eq_some_iff.mp h.root).1]
    exact h.root
  parentless := by
    have new : (l.progress.forest.spawn (some t.cluster)).1.parent 0 = none := by
      rw [Forest.parent_spawn, if_neg (Nat.ne_of_lt h.size_pos)]
      exact h.parentless
    cases c with
    | owned ids => exact (Forest.parent_addToRemainder ..).trans h.parentless
    | terminal u => exact (Forest.parent_addToRemainder ..).trans new
    | queued stage u => exact new
    | again => exact h.parentless
  notSmall d u hd hu := by
    rcases getElem?_append_toList hu with hu | hu
    · exact h.notSmall d u hd hu
    · exact notSmall u hu

theorem foldl_enter (h : Sound k v l (ps.map fun c => (t.cluster, Placement.vertices t c)))
    (notSmall : ∀ c ∈ ps, ∀ u, c.made = some u → k.isSmall u = false) :
    Sound k v (ps.foldl (Placement.enter t) l) [] := by
  induction ps generalizing l with
  | nil => exact h
  | cons c ps ih =>
      exact ih (h.enter (notSmall c List.mem_cons_self))
        fun d hd => notSmall d (List.mem_cons_of_mem _ hd)

theorem nodup_of_mem_queue (h : Sound k v l []) (ht : t ∈ l.progress.queue) :
    t.view.vertexList.Nodup := by
  obtain ⟨before, after, split⟩ := List.append_of_mem (List.mem_map_of_mem (f := Task.due) ht)
  have first : Account l.progress.forest l.views (t.due :: (before ++ after)) := by
    apply h.account.of_perm
    rw [List.nil_append, split]
    exact List.perm_middle.symm
  exact first.nodup_of_mem

end Sound

/-- The invariant holds when a run starts. -/
theorem sound_start (k : Clustering α) (hv : v.vertexList.Nodup) (stage : Stage) :
    Sound k v ⟨start v stage, [v]⟩ [] where
  account :=
    { wellFormed := Forest.wellFormed_single
      length_views := rfl
      pending := by
        intro e he
        rw [List.mem_singleton.mp he]
        exact Nat.one_pos
      nodup := by
        intro u hu
        rw [List.mem_singleton.mp hu]
        exact hv
      balanced := by
        intro c hc
        rw [Nat.lt_one_iff.mp hc]
        exact .of_eq (List.append_nil _) }
  root := rfl
  parentless := rfl
  notSmall c u hc hu := by
    obtain ⟨hlt, -⟩ := List.getElem?_eq_some_iff.mp hu
    exact absurd (Nat.lt_one_iff.mp hlt) hc

/-! ## The tree against the views -/

/-- A tree fits the views that its clusters were made for: the clusters below each
cluster own the vertices of its view, once each, no view but the first is too
small, and the views of children are disjoint parts of their parent's. -/
structure FitsViews (m : Int) (v : View α) (l : Ledger α) : Prop where
  drained : l.progress.queue = []
  root : l.views[0]? = some v
  length_views : l.views.length = l.progress.forest.size
  aggregate : ∀ c u, l.views[c]? = some u →
    (l.progress.forest.aggregate c).Perm u.vertexList ∧ u.vertexList.Nodup
  large : ∀ c u, c ≠ 0 → l.views[c]? = some u → m ≤ u.order
  subset : ∀ c p u w, l.progress.forest.parent c = some p → l.views[c]? = some u →
    l.views[p]? = some w → u.vertexList ⊆ w.vertexList
  disjoint : ∀ c d p u w, l.progress.forest.parent c = some p →
    l.progress.forest.parent d = some p → c ≠ d → l.views[c]? = some u → l.views[d]? = some w →
      u.vertexList.Disjoint w.vertexList

theorem Sound.fitsViews {m : Int} (hm : k.minSize = .int m) (h : Sound k v l [])
    (drained : l.progress.queue = []) : FitsViews m v l := by
  have account : Account l.progress.forest l.views [] := by
    have account := h.account
    rwa [drained] at account
  have size : ∀ c u, l.views[c]? = some u → c < l.progress.forest.size := fun c u hu => by
    rw [← account.length_views]
    exact (List.getElem?_eq_some_iff.mp hu).1
  refine ⟨drained, h.root, account.length_views, fun c u hu => ⟨?_, ?_⟩, ?_, ?_, ?_⟩
  · rw [← verticesOf_of_getElem? hu]
    exact account.aggregate_perm (size c u hu)
  · exact account.nodup u (List.mem_of_getElem? hu)
  · intro c u hc hu
    have large := h.notSmall c u hc hu
    rw [isSmall, hm, Number.less_int, decide_eq_false_iff_not] at large
    exact Int.not_lt.mp large
  · intro c p u w hp hu hw
    rw [← verticesOf_of_getElem? hu, ← verticesOf_of_getElem? hw]
    exact account.subset_parent hp
  · intro c d p u w hc hd hcd hu hw
    rw [← verticesOf_of_getElem? hu, ← verticesOf_of_getElem? hw]
    exact account.disjoint_siblings hc hd hcd

/-! ## A whole run -/

theorem forest_counted (p : Progress α) (stage : Stage) : (counted p stage).forest = p.forest := by
  cases stage <;> rfl

theorem cost_queue_put (t : Task α) (p : Progress α) (c : Placement α) :
    ((c.put t p).queue.map Task.cost).sum = (p.queue.map Task.cost).sum + c.cost t := by
  cases c with
  | owned ids => rfl
  | terminal u => rfl
  | queued stage u =>
      rw [Placement.put, enqueue, List.map_append, List.sum_append]
      rfl
  | again =>
      rw [Placement.put, List.map_append, List.sum_append]
      rfl

theorem cost_queue_foldl_put (t : Task α) (p : Progress α) (ps : List (Placement α)) :
    ((ps.foldl (Placement.put t) p).queue.map Task.cost).sum =
      (p.queue.map Task.cost).sum + (ps.map (Placement.cost t)).sum := by
  induction ps generalizing p with
  | nil => rfl
  | cons c ps ih =>
      rw [List.foldl_cons, ih, cost_queue_put, List.map_cons, List.sum_cons, Nat.add_assoc]

theorem cost_pos (t : Task α) : 0 < t.cost := by
  rw [Task.cost]
  cases t.stage <;> exact Nat.lt_of_lt_of_le Nat.one_pos (Nat.le_max_left ..)

theorem queue_eq_nil_of_cost {ts : List (Task α)} (h : (ts.map Task.cost).sum = 0) : ts = [] := by
  cases ts with
  | nil => rfl
  | cons t ts =>
      have := cost_pos t
      rw [List.map_cons, List.sum_cons] at h
      omega

theorem cost_start (v : View α) (stage : Stage) :
    (((start v stage).queue).map Task.cost).sum ≤ taskBound v.order := by
  cases stage <;> simp only [start, List.map_cons, List.map_nil, List.sum_cons, List.sum_nil,
    Task.cost, Stage.cost, taskBound] <;> omega

variable [Scalar α] {rest : List (Task α)}

/-- A task keeps the invariant. -/
theorem Sound.settle (h : Sound k v l []) (hsigns : k.SignsEach)
    (hq : l.progress.queue = t :: rest) (hps : k.placements t = .ok ps) :
    Sound k v (settle t rest l ps) [] := by
  have ht : t.view.vertexList.Nodup := h.nodup_of_mem_queue (hq ▸ List.mem_cons_self)
  refine Sound.foldl_enter ?_ fun c hc u hu => isSmall_of_made ht hps hc hu
  refine ⟨?_, h.root, ?_, h.notSmall⟩
  · have account := h.account
    rw [hq] at account
    have split := placements_perm hsigns ht hps
    rw [List.flatMap_def] at split
    have regrouped := account.regroup split
    rw [List.map_map] at regrouped
    dsimp only
    rw [forest_counted, queue_counted]
    exact regrouped
  · dsimp only
    rw [forest_counted]
    exact h.parentless

theorem cost_settle_le (h : Sound k v l []) (hsigns : k.SignsEach)
    (hk : Setting.Rule.atLeastOne.refuses k.minSize = false)
    (hq : l.progress.queue = t :: rest) (hps : k.placements t = .ok ps)
    (hcost : (l.progress.queue.map Task.cost).sum ≤ fuel + 1) :
    ((Clustering.settle t rest l ps).progress.queue.map Task.cost).sum ≤ fuel := by
  have ht : t.view.vertexList.Nodup := h.nodup_of_mem_queue (hq ▸ List.mem_cons_self)
  have less := cost_placements_lt hk hsigns ht hps
  rw [Clustering.settle, progress_foldl_enter, cost_queue_foldl_put, queue_counted]
  rw [hq, List.map_cons, List.sum_cons] at hcost
  dsimp only
  omega

/-- A run that covers the costs of its tasks keeps the invariant and empties the queue. -/
theorem record_sound (hk : Setting.Rule.atLeastOne.refuses k.minSize = false)
    (hsigns : k.SignsEach) (h : Sound k v l [])
    (hcost : (l.progress.queue.map Task.cost).sum ≤ fuel) (hl : k.record fuel l = .ok l') :
    Sound k v l' [] ∧ l'.progress.queue = [] := by
  induction fuel generalizing l with
  | zero =>
      cases hl
      exact ⟨h, queue_eq_nil_of_cost (Nat.le_zero.mp hcost)⟩
  | succ fuel ih =>
      rw [record] at hl
      split at hl
      · rename_i hq
        cases hl
        exact ⟨h, hq⟩
      · rename_i t rest hq
        obtain ⟨ps, hps, hl⟩ := exists_of_bind_eq_ok hl
        exact ih (h.settle hsigns hq hps) (cost_settle_le h hsigns hk hq hps hcost) hl

/-- If the minimum size is a whole number, a run that fails has done some tasks and fails at
the next one. -/
theorem failure_of_record {m : Int} (hm : k.minSize = .int m) (hsigns : k.SignsEach)
    (h : Sound k v l []) (hl : k.record fuel l = .error e) :
    ∃ n l' t rest, k.record n l = .ok l' ∧ l'.progress.queue = t :: rest ∧
      k.placements t = .error e ∧ k.FailsAt t e := by
  induction fuel generalizing l with
  | zero => cases hl
  | succ fuel ih =>
      rw [record] at hl
      split at hl
      · cases hl
      · rename_i t rest hq
        rcases cases_of_bind_eq_error hl with hl | ⟨ps, hps, hl⟩
        · have nodup := h.nodup_of_mem_queue (hq ▸ List.mem_cons_self)
          exact ⟨0, l, t, rest, rfl, hq, hl, failure_of_placements hm nodup hl⟩
        · obtain ⟨n, l', t', rest', done, later⟩ := ih (h.settle hsigns hq hps) hl
          refine ⟨n + 1, l', t', rest', ?_, later⟩
          rw [record, hq]
          simp only [bind, Except.bind, hps]
          exact done

/-- The recorded run for a view balances the accounts of all clusters and leaves no task. -/
theorem recordedPhase_sound (hk : Setting.Rule.atLeastOne.refuses k.minSize = false)
    (hsigns : k.SignsEach) (hv : v.vertexList.Nodup) {stage : Stage}
    (hl : k.recordedPhase v stage = .ok l) : Sound k v l [] ∧ l.progress.queue = [] :=
  record_sound hk hsigns (sound_start k hv stage) (cost_start v stage) hl

/-- If the minimum size is a whole number, the run for a view ends with a tree that
fits the views that its clusters were made for, or, after some tasks, at one where the
bisector fails on its view or the metric on a part of it.  The placements themselves
never report an undersized part: the guard leaves enough vertices, or none. -/
theorem queuePhase_fitsViews {m : Int} (hm : k.minSize = .int m) (hpos : 1 ≤ m)
    (hsigns : k.SignsEach) (hv : v.vertexList.Nodup) (stage : Stage) :
    k.queuePhase v stage = (k.recordedPhase v stage).map Ledger.progress ∧
      match k.recordedPhase v stage with
      | .ok l => FitsViews m v l
      | .error e => ∃ n l t rest, k.record n ⟨start v stage, [v]⟩ = .ok l ∧
          l.progress.queue = t :: rest ∧ k.placements t = .error e ∧ k.FailsAt t e := by
  have hk : Setting.Rule.atLeastOne.refuses k.minSize = false := by
    rw [Setting.Rule.refuses, hm, Number.less_int, decide_eq_false_iff_not]
    omega
  refine ⟨k.queuePhase_eq v stage, ?_⟩
  split
  · rename_i l hl
    obtain ⟨sound, drained⟩ := recordedPhase_sound hk hsigns hv hl
    exact sound.fitsViews hm drained
  · rename_i e he
    exact failure_of_record hm hsigns (sound_start k hv stage) he

/-- Two pairs of vertices, joined by a light edge. -/
def pairs : View ℚ :=
  .whole (.ofEntries #[10, 20, 30, 40] [⟨0, 1, 3⟩, ⟨1, 0, 3⟩, ⟨1, 2, 1⟩, ⟨2, 1, 1⟩, ⟨2, 3, 3⟩,
    ⟨3, 2, 3⟩]) none

/-- Cuts views in the middle, for clusters of two or more. -/
def halving : Clustering ℚ where
  guard := ⟨Metric.relativeWeight, pairs, .int 2, 1 / 2⟩
  minOverlap := 1 / 2
  passLimit := .int 9
  bisector v := .ok (.signs ((List.range v.order).map fun i => decide (2 * i < v.order)))

theorem signsEach_halving : halving.SignsEach := by
  rintro v positive ⟨⟩
  rw [List.length_map, List.length_range]

theorem vertexList_pairs : pairs.vertexList = [10, 20, 30, 40] := by
  cbv

theorem nodup_pairs : pairs.vertexList.Nodup := by
  rw [vertexList_pairs]
  decide

theorem queuePhase_fitsViews_pairs : ∃ l, halving.recordedPhase pairs .whole = .ok l ∧
    l.views.length = 3 ∧ FitsViews 2 pairs l := by
  have fits := (queuePhase_fitsViews (m := 2) rfl (by decide) signsEach_halving nodup_pairs
    .whole).2
  obtain ⟨l, hl, three⟩ : ∃ l, halving.recordedPhase pairs .whole = .ok l ∧ l.views.length = 3 :=
    ⟨_, by cbv, by cbv⟩
  rw [hl] at fits
  exact ⟨l, hl, three, fits⟩

end Clustering

end GraphClustering
