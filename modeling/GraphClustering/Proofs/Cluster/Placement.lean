import GraphClustering.Cluster.Recursive
import GraphClustering.Proofs.Cluster.GreatestPart
import GraphClustering.Proofs.Graph.Partition
import GraphClustering.Proofs.Number

/-!
# What a task does with its vertices

A task shares the vertices of its view out: some go to the remainder of its
cluster, some to new clusters below it, with or without a task of their own.
`placements` lists where they go, without the forest, and `perform_eq` says that
performing a task puts them there.
-/

namespace GraphClustering

namespace Clustering

variable {α : Type} {k : Clustering α} {t : Task α} {v u : View α}

/-- Where vertices of a task's view go. -/
inductive Placement (α : Type) where
  /-- To the remainder of the task's cluster. -/
  | owned (ids : List Int)
  /-- To a new cluster without a task. -/
  | terminal (v : View α)
  /-- To a new cluster with a task. -/
  | queued (stage : Stage) (v : View α)
  /-- Back to the queue, as a component. -/
  | again

namespace Placement

def vertices (t : Task α) : Placement α → List Int
  | owned ids => ids
  | terminal v | queued _ v => v.vertexList
  | again => t.view.vertexList

/-- The view that a new cluster is made for. -/
def made : Placement α → Option (View α)
  | owned _ | again => none
  | terminal v | queued _ v => some v

/-- Puts the vertices where they go. -/
def put (t : Task α) (p : Progress α) : Placement α → Progress α
  | owned ids => toRemainder p t.cluster ids
  | terminal v => addTerminal p t.cluster v
  | queued s v => enqueue p s t.cluster v
  | again => { p with queue := p.queue ++ [{ t with stage := .component }] }

end Placement

/-- A placement adds at most one task to the queue. -/
theorem mem_queue_put {p : Progress α} {c : Placement α} {t' : Task α}
    (h : t' ∈ (c.put t p).queue) :
    t' ∈ p.queue ∨ (∃ s u, c = .queued s u ∧ t' = ⟨u, s, p.forest.size⟩) ∨
      c = .again ∧ t' = { t with stage := .component } := by
  cases c with
  | owned ids => exact .inl h
  | terminal u => exact .inl h
  | queued s u =>
      rcases List.mem_append.mp h with h | h
      · exact .inl h
      · exact .inr (.inl ⟨s, u, rfl, List.mem_singleton.mp h⟩)
  | again =>
      rcases List.mem_append.mp h with h | h
      · exact .inl h
      · exact .inr (.inr ⟨rfl, List.mem_singleton.mp h⟩)

/-- What holds of the tasks of the queue and of all that placements add holds afterwards. -/
theorem forall_mem_queue_foldl_put {P : Task α → Prop} {p : Progress α} {ps : List (Placement α)}
    (old : ∀ t' ∈ p.queue, P t') (new : ∀ s u d, .queued s u ∈ ps → P ⟨u, s, d⟩)
    (back : .again ∈ ps → P { t with stage := .component }) :
    ∀ t' ∈ (ps.foldl (Placement.put t) p).queue, P t' := by
  induction ps generalizing p with
  | nil => exact old
  | cons c ps ih =>
      refine ih ?_ (fun s u d hc => new s u d (List.mem_cons_of_mem _ hc))
        fun hc => back (List.mem_cons_of_mem _ hc)
      intro t' ht'
      rcases mem_queue_put ht' with queued | ⟨s, u, rfl, rfl⟩ | ⟨rfl, rfl⟩
      · exact old t' queued
      · exact new s u _ List.mem_cons_self
      · exact back List.mem_cons_self

/-! ## The placements of a task -/

/-- A component that is the whole view goes back to the queue. -/
def componentPlacement (k : Clustering α) (t : Task α) (v : View α) : Placement α :=
  if v.order = t.view.order then .again
  else if k.isSmall v then .owned v.vertexList
  else if k.isMinimal v then .terminal v
  else .queued .component v

def consistentPlacement (k : Clustering α) (v : View α) : Except Fault (Placement α) :=
  if k.isLarge v then .ok (.queued .spectral v)
  else if k.isMinimal v then .ok (.terminal v)
  else .error (.undersized v.order k.minSize)

def unsettledPlacement (k : Clustering α) (t : Task α) : Placement α :=
  if k.minSize.atMost (.int t.view.order) then .terminal t.view else .owned t.view.vertexList

theorem exists_consistentPlacement {m : Int} (hm : k.minSize = .int m) (h : k.isSmall v = false) :
    ∃ c, k.consistentPlacement v = .ok c := by
  rw [consistentPlacement]
  split_ifs with large same
  · exact ⟨_, rfl⟩
  · exact ⟨_, rfl⟩
  · rw [isSmall, hm, Number.less_int, decide_eq_false_iff_not] at h
    rw [isLarge, hm, Number.less_int, decide_eq_true_eq] at large
    rw [isMinimal, hm, Number.same_int, decide_eq_true_eq] at same
    omega

theorem cases_of_consistentPlacement {c : Placement α}
    (h : k.consistentPlacement v = .ok c) : c = .queued .spectral v ∨ c = .terminal v := by
  rw [consistentPlacement] at h
  split_ifs at h <;> cases h
  · exact .inl rfl
  · exact .inr rfl

/-- Whether the clustering gives a sign to each vertex of a view that it splits. -/
def SignsEach (k : Clustering α) : Prop :=
  ∀ v positive, k.bisector v = .ok (.signs positive) → positive.length = v.order

theorem placeComponent_eq (k : Clustering α) (t : Task α) (p : Progress α) (v : View α) :
    k.placeComponent t p v = (k.componentPlacement t v).put t p := by
  rw [placeComponent, componentPlacement]
  split_ifs <;> rfl

/-- A component as large as the view has all its vertices. -/
theorem vertices_componentPlacement (ht : t.view.vertexList.Nodup) (hv : v ∈ t.view.components) :
    (Placement.vertices t (k.componentPlacement t v)).Perm v.vertexList := by
  rw [componentPlacement]
  split_ifs with same
  · refine (List.Subperm.perm_of_length_le ?_ ?_).symm
    · exact (View.nodup_of_mem_components ht hv).subperm fun id hid =>
        (View.components_perm ht).subset (List.mem_flatMap.mpr ⟨v, hv, hid⟩)
    · rw [Placement.vertices, View.length_vertexList, View.length_vertexList, same]
  all_goals exact .refl _

variable [Scalar α] {ps : List (Placement α)} {c : Placement α} {e : Fault}

/-- A side of a split is guarded unless it is small or the whole view. -/
def partPlacements (k : Clustering α) (t : Task α) (v : View α) :
    Except Fault (List (Placement α)) :=
  if k.isSmall v || v.order == t.view.order then .ok [.owned v.vertexList]
  else do
    let guarded ← k.guard.ensure v
    match guarded.kept with
    | some kept => do .ok [.owned guarded.dropped, ← k.consistentPlacement kept]
    | none => .ok [.owned guarded.dropped]

def partsPlacements (k : Clustering α) (t : Task α) :
    List (View α) → Except Fault (List (Placement α))
  | [] => .ok []
  | v :: vs => do
      let ps ← k.partPlacements t v
      .ok (ps ++ (← k.partsPlacements t vs))

def splitPlacements (k : Clustering α) (t : Task α) : Except Fault (List (Placement α)) := do
  match ← k.bisector t.view with
  | .unsettled => .ok [k.unsettledPlacement t]
  | .signs positive => k.partsPlacements t (Bisection.parts t.view positive)

def placements (k : Clustering α) (t : Task α) : Except Fault (List (Placement α)) :=
  match t.stage with
  | .component => k.splitPlacements t
  | .whole | .spectral => .ok (t.view.components.map (k.componentPlacement t))

/-- Counts a task that is done. -/
def counted (p : Progress α) : Stage → Progress α
  | .component => { p with bisections := p.bisections + 1 }
  | .whole | .spectral => { p with decompositions := p.decompositions + 1 }

omit [Scalar α] in
theorem queue_counted (p : Progress α) (stage : Stage) : (counted p stage).queue = p.queue := by
  cases stage <;> rfl

/-! ## Performing a task -/

theorem placePart_eq (k : Clustering α) (t : Task α) (p : Progress α) (v : View α) :
    k.placePart t p v = (k.partPlacements t v).map fun ps => ps.foldl (Placement.put t) p := by
  rw [placePart, partPlacements]
  split_ifs
  · rfl
  · cases k.guard.ensure v with
    | error e => rfl
    | ok guarded =>
        cases hkept : guarded.kept with
        | none => simp [bind, Except.bind, hkept, Except.map, Placement.put]
        | some kept =>
            simp only [bind, Except.bind, hkept, placeConsistent, consistentPlacement]
            split_ifs <;> rfl

theorem foldlM_placePart_eq (k : Clustering α) (t : Task α) (p : Progress α)
    (vs : List (View α)) :
    vs.foldlM (k.placePart t) p =
      (k.partsPlacements t vs).map fun ps => ps.foldl (Placement.put t) p := by
  induction vs generalizing p with
  | nil => rfl
  | cons v vs ih =>
      rw [List.foldlM_cons, placePart_eq, partsPlacements]
      cases k.partPlacements t v with
      | error e => rfl
      | ok ps =>
          simp only [Except.map, bind, Except.bind, ih]
          cases k.partsPlacements t vs with
          | error e => rfl
          | ok qs => simp only [List.foldl_append]

/-- Performing a task puts its vertices where they go. -/
theorem perform_eq (k : Clustering α) (t : Task α) (p : Progress α) :
    k.perform t p =
      (k.placements t).map fun ps => ps.foldl (Placement.put t) (counted p t.stage) := by
  have decomposed : k.decompose t p = (t.view.components.map (k.componentPlacement t)).foldl
      (Placement.put t) { p with decompositions := p.decompositions + 1 } := by
    rw [decompose, List.foldl_map]
    congr 1
    funext p v
    exact placeComponent_eq k t p v
  rw [perform, placements]
  cases t.stage with
  | whole => simp only [decomposed, Except.map, counted]
  | spectral => simp only [decomposed, Except.map, counted]
  | component =>
      simp only [bisect, splitPlacements, counted]
      cases k.bisector t.view with
      | error e => rfl
      | ok verdict =>
          cases verdict with
          | signs positive => exact foldlM_placePart_eq ..
          | unsettled =>
              simp only [bind, Except.bind, placeUnsettled, unsettledPlacement]
              split_ifs <;> rfl

theorem drain_succ {p : Progress α} {rest : List (Task α)} (hq : p.queue = t :: rest)
    (fuel : Nat) : k.drain (fuel + 1) p = (do
      let ps ← k.placements t
      k.drain fuel (ps.foldl (Placement.put t) (counted { p with queue := rest } t.stage))) := by
  rw [drain, hq]
  dsimp only
  rw [perform_eq]
  cases k.placements t <;> rfl

/-- What every task keeps, unless it fails in an expected way, holds of the whole queue. -/
theorem drain_cases {P : Progress α → Prop} {E : Fault → Prop}
    (step : ∀ p t rest, P p → p.queue = t :: rest →
      (∃ ps, k.placements t = .ok ps ∧
        P (ps.foldl (Placement.put t) (counted { p with queue := rest } t.stage))) ∨
      ∃ e, k.placements t = .error e ∧ E e)
    (fuel : Nat) {p : Progress α} (hp : P p) :
    (∃ q, k.drain fuel p = .ok q ∧ P q) ∨ ∃ e, k.drain fuel p = .error e ∧ E e := by
  induction fuel generalizing p with
  | zero => exact .inl ⟨p, rfl, hp⟩
  | succ fuel ih =>
      cases hq : p.queue with
      | nil =>
          rw [drain, hq]
          exact .inl ⟨p, rfl, hp⟩
      | cons t rest =>
          rw [drain_succ hq]
          rcases step p t rest hp hq with ⟨ps, hps, hp⟩ | ⟨e, he, fails⟩
          · rw [hps]
            exact ih hp
          · rw [he]
            exact .inr ⟨e, rfl, fails⟩

/-- Where no task fails, what every task keeps holds when the queue was worked off. -/
theorem exists_drain {P : Progress α → Prop}
    (step : ∀ p t rest, P p → p.queue = t :: rest → ∃ ps, k.placements t = .ok ps ∧
      P (ps.foldl (Placement.put t) (counted { p with queue := rest } t.stage)))
    (fuel : Nat) {p : Progress α} (hp : P p) : ∃ q, k.drain fuel p = .ok q ∧ P q :=
  (drain_cases (E := fun _ => False) (fun p t rest hp hq => .inl (step p t rest hp hq)) fuel
    hp).resolve_right fun ⟨_, _, impossible⟩ => impossible

/-! ## The vertices of the placements -/

theorem partPlacements_perm (hv : v.vertexList.Nodup) (h : k.partPlacements t v = .ok ps) :
    (ps.flatMap (Placement.vertices t)).Perm v.vertexList := by
  rw [partPlacements] at h
  split_ifs at h
  · cases h
    simp [Placement.vertices]
  · obtain ⟨guarded, hg, h⟩ := exists_of_bind_eq_ok h
    have shared := (Guard.ensure_fits hv hg).perm
    split at h
    · rename_i kept hkept
      obtain ⟨placed, hplaced, h⟩ := exists_of_bind_eq_ok h
      cases h
      have vertices : Placement.vertices t placed = kept.vertexList := by
        rcases cases_of_consistentPlacement hplaced with rfl | rfl <;> rfl
      rw [hkept, Option.elim_some] at shared
      rw [List.flatMap_cons, List.flatMap_singleton, vertices]
      exact List.perm_append_comm.trans shared
    · rename_i hkept
      cases h
      rw [hkept, Option.elim_none, List.nil_append] at shared
      simpa [Placement.vertices] using shared

theorem partsPlacements_perm {vs : List (View α)} (hvs : ∀ v ∈ vs, v.vertexList.Nodup)
    (h : k.partsPlacements t vs = .ok ps) :
    (ps.flatMap (Placement.vertices t)).Perm (vs.flatMap View.vertexList) := by
  induction vs generalizing ps with
  | nil => cases h; exact .refl _
  | cons v vs ih =>
      obtain ⟨qs, hqs, h⟩ := exists_of_bind_eq_ok h
      obtain ⟨rs, hrs, h⟩ := exists_of_bind_eq_ok h
      cases h
      rw [List.flatMap_append, List.flatMap_cons]
      exact (partPlacements_perm (hvs v List.mem_cons_self) hqs).append
        (ih (fun u hu => hvs u (List.mem_cons_of_mem _ hu)) hrs)

/-- The vertices of a task's view are shared out between the placements. -/
theorem placements_perm (hk : k.SignsEach) (ht : t.view.vertexList.Nodup)
    (h : k.placements t = .ok ps) :
    (ps.flatMap (Placement.vertices t)).Perm t.view.vertexList := by
  have components : ((t.view.components.map (k.componentPlacement t)).flatMap
      (Placement.vertices t)).Perm t.view.vertexList := by
    rw [List.flatMap_map]
    exact (List.Perm.flatMap_left _ fun v hv => vertices_componentPlacement ht hv).trans
      (View.components_perm ht)
  rw [placements] at h
  cases hs : t.stage with
  | whole => rw [hs] at h; cases h; exact components
  | spectral => rw [hs] at h; cases h; exact components
  | component =>
      rw [hs] at h
      obtain ⟨verdict, hverdict, h⟩ := exists_of_bind_eq_ok h
      cases verdict with
      | unsettled =>
          cases h
          rw [unsettledPlacement]
          split_ifs <;> simp [Placement.vertices]
      | signs positive =>
          exact (partsPlacements_perm (fun u hu => View.nodup_of_mem_parts ht hu) h).trans
            (View.parts_perm ht (hk _ _ hverdict))

/-! ## The new clusters -/

theorem cases_of_mem_partPlacements (h : k.partPlacements t v = .ok ps) (hc : c ∈ ps) :
    (∃ ids, c = .owned ids) ∨ ∃ guarded kept, k.guard.ensure v = .ok guarded ∧
      guarded.kept = some kept ∧ (c = .queued .spectral kept ∨ c = .terminal kept) := by
  rw [partPlacements] at h
  split_ifs at h
  · cases h
    exact .inl ⟨_, List.mem_singleton.mp hc⟩
  · obtain ⟨guarded, hg, h⟩ := exists_of_bind_eq_ok h
    split at h
    · rename_i kept hkept
      obtain ⟨placed, hplaced, h⟩ := exists_of_bind_eq_ok h
      cases h
      rcases List.mem_pair.mp hc with rfl | rfl
      · exact .inl ⟨_, rfl⟩
      · exact .inr ⟨guarded, kept, hg, hkept, cases_of_consistentPlacement hplaced⟩
    · cases h
      exact .inl ⟨_, List.mem_singleton.mp hc⟩

theorem exists_of_mem_partsPlacements {vs : List (View α)} (h : k.partsPlacements t vs = .ok ps)
    (hc : c ∈ ps) : ∃ v ∈ vs, ∃ qs, k.partPlacements t v = .ok qs ∧ c ∈ qs := by
  induction vs generalizing ps with
  | nil => cases h; cases hc
  | cons v vs ih =>
      obtain ⟨qs, hqs, h⟩ := exists_of_bind_eq_ok h
      obtain ⟨rs, hrs, h⟩ := exists_of_bind_eq_ok h
      cases h
      rcases List.mem_append.mp hc with hc | hc
      · exact ⟨v, List.mem_cons_self, qs, hqs, hc⟩
      · obtain ⟨u, hu, rest⟩ := ih hrs hc
        exact ⟨u, List.mem_cons_of_mem _ hu, rest⟩

/-- A placement is for a component, for a view without a split, for a side that the
guard has left something of, or for vertices that stay with the cluster. -/
theorem cases_of_mem_placements (h : k.placements t = .ok ps) (hc : c ∈ ps) :
    (∃ v ∈ t.view.components, c = k.componentPlacement t v) ∨
      (t.stage = .component ∧ c = k.unsettledPlacement t) ∨
      (∃ positive, ∃ v ∈ Bisection.parts t.view positive, ∃ guarded kept,
        k.guard.ensure v = .ok guarded ∧ guarded.kept = some kept ∧
          (c = .queued .spectral kept ∨ c = .terminal kept)) ∨
      ∃ ids, c = .owned ids := by
  have components : c ∈ t.view.components.map (k.componentPlacement t) →
      ∃ v ∈ t.view.components, c = k.componentPlacement t v := fun hc => by
    obtain ⟨v, hv, rfl⟩ := List.mem_map.mp hc
    exact ⟨v, hv, rfl⟩
  rw [placements] at h
  cases hs : t.stage with
  | whole => rw [hs] at h; cases h; exact .inl (components hc)
  | spectral => rw [hs] at h; cases h; exact .inl (components hc)
  | component =>
      rw [hs] at h
      obtain ⟨verdict, -, h⟩ := exists_of_bind_eq_ok h
      cases verdict with
      | unsettled =>
          cases h
          exact .inr (.inl ⟨rfl, List.mem_singleton.mp hc⟩)
      | signs positive =>
          obtain ⟨v, hv, qs, hqs, hc⟩ := exists_of_mem_partsPlacements h hc
          rcases cases_of_mem_partPlacements hqs hc with owned | kept
          · exact .inr (.inr (.inr owned))
          · exact .inr (.inr (.inl ⟨positive, v, hv, kept⟩))

/-- No cluster is made for a view that is too small. -/
theorem isSmall_of_made (ht : t.view.vertexList.Nodup) (h : k.placements t = .ok ps)
    (hc : c ∈ ps) (hu : c.made = some u) : k.isSmall u = false := by
  rcases cases_of_mem_placements h hc with ⟨v, -, rfl⟩ | ⟨-, rfl⟩ |
    ⟨positive, v, hv, guarded, kept, hg, hkept, rfl | rfl⟩ | ⟨ids, rfl⟩
  · rw [componentPlacement] at hu
    split_ifs at hu with _ small _ <;> cases hu <;> exact Bool.eq_false_iff.mpr small
  · rw [unsettledPlacement] at hu
    split_ifs at hu with large <;> cases hu
    exact Number.less_eq_false_of_atMost large
  · cases hu
    exact (Guard.ensure_fits (View.nodup_of_mem_parts ht hv) hg).notSmall _ hkept
  · cases hu
    exact (Guard.ensure_fits (View.nodup_of_mem_parts ht hv) hg).notSmall _ hkept
  · cases hu

/-- The view of a new task is a part of the view of the task that it comes from. -/
theorem partOf_of_queued {stage : Stage} (h : k.placements t = .ok ps)
    (hc : .queued stage u ∈ ps) : u.PartOf t.view := by
  rcases cases_of_mem_placements h hc with ⟨v, hv, placed⟩ | ⟨-, placed⟩ |
    ⟨positive, v, hv, guarded, kept, hg, hkept, placed | placed⟩ | ⟨ids, placed⟩
  · rw [componentPlacement] at placed
    split_ifs at placed
    cases placed
    exact View.partOf_of_mem_components hv
  · rw [unsettledPlacement] at placed
    split_ifs at placed
  · cases placed
    have part := View.partOf_of_mem_parts hv
    exact (Guard.partOf_of_shrink part.ascending hg hkept).trans part
  · cases placed
  · cases placed

/-- If the tasks of a queue are for parts of a view, they are so after one of them is done. -/
theorem partOf_of_mem_queue {g : View α} {p : Progress α} (h : k.placements t = .ok ps)
    (part : t.view.PartOf g) (others : ∀ t' ∈ p.queue, t'.view.PartOf g) :
    ∀ t' ∈ (ps.foldl (Placement.put t) (counted p t.stage)).queue, t'.view.PartOf g := by
  apply forall_mem_queue_foldl_put (P := fun t' => t'.view.PartOf g)
  · intro t' ht'
    rw [queue_counted] at ht'
    exact others t' ht'
  · intro s u d hc
    exact (partOf_of_queued h hc).trans part
  · exact fun _ => part

/-! ## Failures -/

theorem failure_of_partPlacements {m : Int} (hm : k.minSize = .int m) (hv : v.vertexList.Nodup)
    (h : k.partPlacements t v = .error e) : k.guard.ensure v = .error e := by
  rw [partPlacements] at h
  split_ifs at h
  rcases cases_of_bind_eq_error h with h | ⟨guarded, hg, h⟩
  · exact h
  · split at h
    · rename_i kept hkept
      have notSmall := (Guard.ensure_fits hv hg).notSmall kept hkept
      obtain ⟨c, hc⟩ := exists_consistentPlacement hm notSmall
      rw [hc] at h
      cases h
    · cases h

theorem failure_of_partsPlacements {m : Int} (hm : k.minSize = .int m) {vs : List (View α)}
    (hvs : ∀ v ∈ vs, v.vertexList.Nodup) (h : k.partsPlacements t vs = .error e) :
    ∃ v ∈ vs, k.guard.ensure v = .error e := by
  induction vs with
  | nil => cases h
  | cons v vs ih =>
      rcases cases_of_bind_eq_error h with h | ⟨ps, -, h⟩
      · exact ⟨v, List.mem_cons_self, failure_of_partPlacements hm (hvs v List.mem_cons_self) h⟩
      · rcases cases_of_bind_eq_error h with h | ⟨qs, -, h⟩
        · obtain ⟨u, hu, fails⟩ := ih (fun u hu => hvs u (List.mem_cons_of_mem _ hu)) h
          exact ⟨u, List.mem_cons_of_mem _ hu, fails⟩
        · cases h

/-- Failing at a task: the bisector fails on its view, or the metric on a part of the view. -/
def FailsAt (k : Clustering α) (t : Task α) (e : Fault) : Prop :=
  k.bisector t.view = .error e ∨ ∃ u, u.PartOf t.view ∧ k.guard.metric k.guard.graph u = .error e

/-- If the minimum size is a whole number, a task fails in no other way. -/
theorem failure_of_placements {m : Int} (hm : k.minSize = .int m) (ht : t.view.vertexList.Nodup)
    (h : k.placements t = .error e) : k.FailsAt t e := by
  rw [placements] at h
  cases hs : t.stage with
  | whole => rw [hs] at h; cases h
  | spectral => rw [hs] at h; cases h
  | component =>
      rw [hs] at h
      rcases cases_of_bind_eq_error h with h | ⟨verdict, -, h⟩
      · exact .inl h
      · cases verdict with
        | unsettled => cases h
        | signs positive =>
            obtain ⟨u, hu, fails⟩ :=
              failure_of_partsPlacements hm (fun u hu => View.nodup_of_mem_parts ht hu) h
            have part := View.partOf_of_mem_parts hu
            obtain ⟨w, inner, fails⟩ := Guard.exists_partOf_of_ensure_eq_error part.ascending fails
            exact .inr ⟨w, inner.trans part, fails⟩

end Clustering

end GraphClustering
