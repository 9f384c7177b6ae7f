import GraphClustering.Proofs.Cluster.QueuePhase
import GraphClustering.Proofs.Graph.Linked

/-!
# The queue works from the top down

A cluster has at most one task in the queue, and before the task is done it has
neither children nor a remainder (`Orderly`).  So a cluster that has a child has no
task any more, and its children and its remainder stay as they are (`Complete`).  Both
hold at every moment of a run, also while a task is done (`Passes`), and the run ends
after no more tasks than the order of the view allows (`queuePhase_orderly`).
-/

namespace GraphClustering

open Relation

namespace Clustering

variable {α : Type} {k : Clustering α} {v u : View α} {p q : Progress α} {t : Task α}
variable {rest : List (Task α)} {a d : ClusterId} {c : Placement α} {ps : List (Placement α)}
variable {s : Store α}

/-! ## The order of the queue -/

/-- A cluster has at most one task in the queue.  As long as it has one, it has neither
children nor a remainder, and if the task is for a component its view is connected. -/
structure Orderly (p : Progress α) : Prop where
  nodup : (p.queue.map Task.cluster).Nodup
  children : ∀ t ∈ p.queue, p.forest.children t.cluster = []
  remainder : ∀ t ∈ p.queue, p.forest.remainder t.cluster = []
  connected : ∀ t ∈ p.queue, t.stage = .component → t.view.Connected

/-- A task for a cluster of the forest and for a view of the store without repetition. -/
structure Proper (s : Store α) (f : Forest) (t : Task α) : Prop where
  lt_size : t.cluster < f.size
  store : t.view.store = s
  nodup : t.view.vertexList.Nodup

/-- An orderly queue of proper tasks. -/
structure Arranged (s : Store α) (p : Progress α) : Prop extends Orderly p where
  wellFormed : p.forest.WellFormed
  proper : ∀ t ∈ p.queue, Proper s p.forest t

/-- A queue while a task is done that was taken from it. -/
structure Underway (s : Store α) (t : Task α) (p : Progress α) : Prop extends Arranged s p where
  lt_size : t.cluster < p.forest.size
  notMem : t.cluster ∉ p.queue.map Task.cluster

/-- A cluster without a task has these children and this remainder. -/
structure Complete (f : Forest) (a : ClusterId) (p : Progress α) : Prop where
  lt_size : a < p.forest.size
  notMem : a ∉ p.queue.map Task.cluster
  children : p.forest.children a = f.children a
  remainder : p.forest.remainder a = f.remainder a

/-- A placement other than a return to the queue; a new task has a view without repetition, and
a connected one if it is for a component. -/
def Placement.Tidy (t : Task α) : Placement α → Prop
  | owned _ | terminal _ => True
  | queued s v => v.store = t.view.store ∧ v.vertexList.Nodup ∧ (s = .component → v.Connected)
  | again => False

/-! ## One placement -/

theorem size_le_put (t : Task α) (p : Progress α) (c : Placement α) :
    p.forest.size ≤ (c.put t p).forest.size := by
  have grown := p.forest.size_spawn t.cluster
  cases c with
  | owned ids => exact (Forest.size_addToRemainder ..).ge
  | terminal u =>
      simp only [Placement.put, addTerminal, Forest.size_addToRemainder, grown]
      exact Nat.le_succ _
  | queued s u =>
      simp only [Placement.put, enqueue, grown]
      exact Nat.le_succ _
  | again => exact le_rfl

theorem wellFormed_put (hf : p.forest.WellFormed) (ht : t.cluster < p.forest.size)
    (c : Placement α) : (c.put t p).forest.WellFormed := by
  have grown := p.forest.wellFormed_spawn t.cluster hf ht
  cases c with
  | owned ids => exact (Forest.SameLinks.addToRemainder ..).wellFormed hf
  | terminal u => exact (Forest.SameLinks.addToRemainder ..).wellFormed grown
  | queued s u => exact grown
  | again => exact hf

/-- A placement leaves all other clusters as they are. -/
theorem children_put (hf : p.forest.WellFormed) (ht : t.cluster < p.forest.size)
    (hd : d ≠ t.cluster) (c : Placement α) :
    (c.put t p).forest.children d = p.forest.children d := by
  have grown := p.forest.children_spawn t.cluster d hf.agreeing ht
  rw [if_neg hd] at grown
  cases c with
  | owned ids => exact Forest.children_addToRemainder ..
  | terminal u => exact (Forest.children_addToRemainder ..).trans grown
  | queued s u => exact grown
  | again => rfl

theorem remainder_put (ht : t.cluster < p.forest.size) (hd : d ≠ t.cluster)
    (hsize : d < p.forest.size) (c : Placement α) :
    (c.put t p).forest.remainder d = p.forest.remainder d := by
  have grown := p.forest.remainder_spawn t.cluster d
  cases c with
  | owned ids =>
      refine (Forest.remainder_addToRemainder _ _ _ _ ht).trans ?_
      rw [if_neg hd]
  | terminal u =>
      have new : p.forest.size < (p.forest.spawn (some t.cluster)).1.size := by
        rw [Forest.size_spawn]
        exact Nat.lt_succ_self _
      refine (Forest.remainder_addToRemainder _ _ _ _ new).trans ?_
      rw [if_neg (Nat.ne_of_lt hsize), grown]
  | queued s u => exact grown
  | again => rfl

theorem Complete.put {f : Forest} (h : Complete f a p) (hf : p.forest.WellFormed)
    (ht : t.cluster < p.forest.size) (ha : a ≠ t.cluster) (c : Placement α) :
    Complete f a (c.put t p) where
  lt_size := h.lt_size.trans_le (size_le_put t p c)
  notMem mem := by
    obtain ⟨t', ht', rfl⟩ := List.mem_map.mp mem
    rcases mem_queue_put ht' with old | ⟨s, u, -, rfl⟩ | ⟨-, rfl⟩
    · exact h.notMem (List.mem_map_of_mem old)
    · exact lt_irrefl _ h.lt_size
    · exact ha rfl
  children := (children_put hf ht ha c).trans h.children
  remainder := (remainder_put ht ha h.lt_size c).trans h.remainder

theorem Placement.Tidy.forall_mem_queue {P : Task α → Prop} (hc : c.Tidy t)
    (old : ∀ t' ∈ p.queue, P t')
    (new : ∀ s u, c = .queued s u → P ⟨u, s, p.forest.size⟩) : ∀ t' ∈ (c.put t p).queue, P t' := by
  intro t' ht'
  rcases mem_queue_put ht' with ht' | ⟨s, u, hu, rfl⟩ | ⟨rfl, -⟩
  · exact old t' ht'
  · exact new s u hu
  · exact hc.elim

/-- A tidy placement keeps the queue in order. -/
theorem Underway.put (h : Underway s t p) (ht : t.view.store = s) (hc : c.Tidy t) :
    Underway s t (c.put t p) := by
  have le := size_le_put t p c
  have newest : p.forest.size ≠ t.cluster := Nat.ne_of_gt h.lt_size
  have fresh : p.forest.size ∉ p.queue.map Task.cluster := fun mem => by
    obtain ⟨t', ht', same⟩ := List.mem_map.mp mem
    exact lt_irrefl _ (same ▸ (h.proper t' ht').lt_size)
  have others : ∀ t' ∈ p.queue, t'.cluster ≠ t.cluster := fun t' ht' same =>
    h.notMem (same ▸ List.mem_map_of_mem ht')
  have bare : p.forest.children p.forest.size = [] ∧ p.forest.remainder p.forest.size = [] := by
    rw [Forest.children, Forest.remainder, Forest.cluster_of_size_le le_rfl]
    exact ⟨rfl, rfl⟩
  have clusters : (c.put t p).queue.map Task.cluster = p.queue.map Task.cluster ∨
      (c.put t p).queue.map Task.cluster = p.queue.map Task.cluster ++ [p.forest.size] := by
    cases c with
    | owned ids => exact .inl rfl
    | terminal u => exact .inl rfl
    | queued s u => exact .inr (List.map_append ..)
    | again => exact hc.elim
  refine
    { nodup := ?_
      children := hc.forall_mem_queue (fun t' ht' => ?_) fun s u _ => ?_
      remainder := hc.forall_mem_queue (fun t' ht' => ?_) ?_
      connected := hc.forall_mem_queue h.connected ?_
      wellFormed := wellFormed_put h.wellFormed h.lt_size c
      proper := hc.forall_mem_queue (fun t' ht' => ?_) ?_
      lt_size := h.lt_size.trans_le le
      notMem := ?_ }
  · rcases clusters with same | more
    · rw [same]
      exact h.nodup
    · rw [more, List.nodup_append_comm]
      exact List.nodup_cons.mpr ⟨fresh, h.nodup⟩
  · rw [children_put h.wellFormed h.lt_size (others t' ht'), h.children t' ht']
  · rw [children_put h.wellFormed h.lt_size newest, bare.1]
  · rw [remainder_put h.lt_size (others t' ht') (h.proper t' ht').lt_size, h.remainder t' ht']
  · rintro s' u rfl
    exact (p.forest.remainder_spawn (some t.cluster) _).trans bare.2
  · rintro s' u rfl
    exact hc.2.2
  · exact { h.proper t' ht' with lt_size := (h.proper t' ht').lt_size.trans_le le }
  · rintro s' u rfl
    refine ⟨?_, hc.1.trans ht, hc.2.1⟩
    exact (Nat.lt_succ_self _).trans_eq (p.forest.size_spawn (some t.cluster)).symm
  · rcases clusters with same | more
    · rw [same]
      exact h.notMem
    · rw [more, List.mem_append, List.mem_singleton]
      exact fun mem => mem.elim h.notMem fun same => newest same.symm

theorem arranged_start (hv : v.vertexList.Nodup) : Arranged v.store (start v .whole) where
  nodup := List.nodup_singleton _
  children := List.forall_mem_singleton.mpr rfl
  remainder := List.forall_mem_singleton.mpr rfl
  connected := List.forall_mem_singleton.mpr nofun
  wellFormed := Forest.wellFormed_single
  proper := List.forall_mem_singleton.mpr ⟨Nat.one_pos, rfl, hv⟩

/-- A task that goes back keeps the queue in order, if its cluster is still bare. -/
theorem Underway.putAgain (h : Underway s t p) (ht : Proper s p.forest t)
    (connected : t.view.Connected) (children : p.forest.children t.cluster = [])
    (remainder : p.forest.remainder t.cluster = []) : Arranged s (Placement.again.put t p) where
  nodup := by
    rw [Placement.put, List.map_append, List.nodup_append_comm]
    exact List.nodup_cons.mpr ⟨h.notMem, h.nodup⟩
  children := List.forall_mem_append.mpr ⟨h.children, List.forall_mem_singleton.mpr children⟩
  remainder := List.forall_mem_append.mpr ⟨h.remainder, List.forall_mem_singleton.mpr remainder⟩
  connected := List.forall_mem_append.mpr
    ⟨h.connected, List.forall_mem_singleton.mpr fun _ => connected⟩
  wellFormed := h.wellFormed
  proper := List.forall_mem_append.mpr
    ⟨h.proper, List.forall_mem_singleton.mpr ⟨ht.lt_size, ht.store, ht.nodup⟩⟩

/-! ## All placements of a task -/

theorem Underway.counted (h : Underway s t p) (stage : Stage) :
    Underway s t (counted p stage) := by
  cases stage <;> exact ⟨⟨⟨h.nodup, h.children, h.remainder, h.connected⟩, h.wellFormed, h.proper⟩,
    h.lt_size, h.notMem⟩

theorem Underway.foldl_put (h : Underway s t p) (ht : t.view.store = s)
    (tidy : ∀ c ∈ ps, c.Tidy t) : Underway s t (ps.foldl (Placement.put t) p) := by
  induction ps generalizing p with
  | nil => exact h
  | cons c ps ih =>
      exact ih (h.put ht (tidy c List.mem_cons_self)) fun c hc => tidy c (List.mem_cons_of_mem _ hc)

theorem Complete.counted {f : Forest} (h : Complete f a p) (stage : Stage) :
    Complete f a (counted p stage) := by
  cases stage <;> exact ⟨h.lt_size, h.notMem, h.children, h.remainder⟩

theorem Complete.foldl_put {f : Forest} (h : Complete f a p) (hf : p.forest.WellFormed)
    (ht : t.cluster < p.forest.size) (ha : a ≠ t.cluster) (ps : List (Placement α)) :
    Complete f a (ps.foldl (Placement.put t) p) := by
  induction ps generalizing p with
  | nil => exact h
  | cons c ps ih =>
      exact ih (h.put hf ht ha c) (wellFormed_put hf ht c) (ht.trans_le (size_le_put t p c))

theorem count_foldl_put (t : Task α) (p : Progress α) (ps : List (Placement α)) :
    (ps.foldl (Placement.put t) p).decompositions = p.decompositions ∧
      (ps.foldl (Placement.put t) p).bisections = p.bisections := by
  induction ps generalizing p with
  | nil => exact ⟨rfl, rfl⟩
  | cons c ps ih =>
      have one : (c.put t p).decompositions = p.decompositions ∧
          (c.put t p).bisections = p.bisections := by
        cases c <;> exact ⟨rfl, rfl⟩
      exact ⟨(ih _).1.trans one.1, (ih _).2.trans one.2⟩

theorem count_counted (p : Progress α) (stage : Stage) :
    (counted p stage).decompositions + (counted p stage).bisections =
      p.decompositions + p.bisections + 1 := by
  cases stage with
  | whole => exact Nat.add_right_comm ..
  | component => rfl
  | spectral => exact Nat.add_right_comm ..

/-- The queue is in order once a task is taken from it. -/
theorem Arranged.taken (h : Arranged s p) (hq : p.queue = t :: rest) :
    Underway s t { p with queue := rest } := by
  have queued : ∀ t' ∈ rest, t' ∈ p.queue := fun t' ht' => hq ▸ List.mem_cons_of_mem t ht'
  have clusters := h.nodup
  rw [hq, List.map_cons, List.nodup_cons] at clusters
  exact
    { nodup := clusters.2
      children := fun t' ht' => h.children t' (queued t' ht')
      remainder := fun t' ht' => h.remainder t' (queued t' ht')
      connected := fun t' ht' => h.connected t' (queued t' ht')
      wellFormed := h.wellFormed
      proper := fun t' ht' => h.proper t' (queued t' ht')
      lt_size := (h.proper t (hq ▸ List.mem_cons_self)).lt_size
      notMem := clusters.1 }

/-! ## The moments of a task -/

/-- What all placements of a task have in common. -/
def Regular (t : Task α) (ps : List (Placement α)) : Prop :=
  ps = [.again] ∧ t.view.Connected ∨ ∀ c ∈ ps, c.Tidy t

theorem tidy_componentPlacement
    (within : ∀ row, (t.view.store.span row).2 ≤ t.view.store.edges.size)
    (hv : t.view.vertexList.Nodup) (hu : u ∈ t.view.components) (part : u.order ≠ t.view.order) :
    (k.componentPlacement t u).Tidy t := by
  rw [componentPlacement, if_neg part]
  split_ifs
  · trivial
  · trivial
  · exact ⟨(View.partOf_of_mem_components hu).store, View.nodup_of_mem_components hv hu,
      fun _ => View.connected_of_mem_components within hu⟩

theorem regular_components (within : ∀ row, (t.view.store.span row).2 ≤ t.view.store.edges.size)
    (hv : t.view.vertexList.Nodup) {vs : List (View α)} (hvs : vs <+: t.view.components) :
    Regular t (vs.map (k.componentPlacement t)) := by
  by_cases whole : ∃ u ∈ vs, u.order = t.view.order
  · obtain ⟨u, hu, same⟩ := whole
    obtain ⟨only, connected⟩ := View.connected_of_order_eq within hv (hvs.subset hu) same
    rw [only] at hvs
    obtain rfl : vs = [u] := hvs.eq_of_length_le (List.length_pos_of_mem hu)
    rw [List.map_singleton, componentPlacement, if_pos same]
    exact .inl ⟨rfl, connected⟩
  · refine .inr fun c hc => ?_
    obtain ⟨u, hu, rfl⟩ := List.mem_map.mp hc
    exact tidy_componentPlacement within hv (hvs.subset hu) fun same => whole ⟨u, hu, same⟩

section During

variable [Scalar α]

/-- A moment at which a task is done: it is taken from the queue, some of the components or
some of the sides of its view are placed, or the guard has dropped some vertices of a side. -/
inductive During (k : Clustering α) (t : Task α) (p : Progress α) : Progress α → Prop
  | taken : During k t p p
  | components (stage : t.stage ≠ .component) {vs : List (View α)}
      (some : vs <+: t.view.components) :
      During k t p
        (vs.foldl (k.placeComponent t) { p with decompositions := p.decompositions + 1 })
  | begun (stage : t.stage = .component) :
      During k t p { p with bisections := p.bisections + 1 }
  | unsettled (stage : t.stage = .component) (whole : k.bisector t.view = .ok .unsettled) :
      During k t p (k.placeUnsettled t { p with bisections := p.bisections + 1 })
  | sides (stage : t.stage = .component) {positive : List Bool}
      (split : k.bisector t.view = .ok (.signs positive)) {vs : List (View α)}
      (some : vs <+: Bisection.parts t.view positive) {q : Progress α}
      (placed : vs.foldlM (k.placePart t) { p with bisections := p.bisections + 1 } = .ok q) :
      During k t p q
  | guarded (stage : t.stage = .component) {positive : List Bool}
      (split : k.bisector t.view = .ok (.signs positive)) {vs : List (View α)} {u : View α}
      (some : vs ++ [u] <+: Bisection.parts t.view positive) {q : Progress α}
      (placed : vs.foldlM (k.placePart t) { p with bisections := p.bisections + 1 } = .ok q)
      {r : Guarded α} (answer : k.guard.ensure u = .ok r) {ids : List Int}
      (dropped : ids <+: r.dropped) :
      During k t p (toRemainder q t.cluster ids)

/-- A task ends at one of its moments. -/
theorem During.of_perform (h : k.perform t p = .ok q) : During k t p q := by
  rw [perform] at h
  cases stage : t.stage with
  | whole =>
      rw [stage] at h
      cases h
      exact .components (by rw [stage]; decide) (List.prefix_refl _)
  | spectral =>
      rw [stage] at h
      cases h
      exact .components (by rw [stage]; decide) (List.prefix_refl _)
  | component =>
      rw [stage] at h
      obtain ⟨verdict, answer, h⟩ := exists_of_bind_eq_ok h
      cases verdict with
      | unsettled =>
          cases h
          exact .unsettled stage answer
      | signs positive => exact .sides stage answer (List.prefix_refl _) h

theorem tidy_of_mem_partsPlacements (hv : t.view.vertexList.Nodup) {positive : List Bool}
    {vs : List (View α)} (hvs : vs ⊆ Bisection.parts t.view positive)
    (h : k.partsPlacements t vs = .ok ps) : ∀ c ∈ ps, c.Tidy t := by
  intro c hc
  obtain ⟨v, mem, qs, hqs, hc⟩ := exists_of_mem_partsPlacements h hc
  have part := View.partOf_of_mem_parts (hvs mem)
  rcases cases_of_mem_partPlacements hqs hc with ⟨ids, rfl⟩ | ⟨r, u, answer, hu, rfl | rfl⟩
  · trivial
  · have kept := (Guard.partOf_of_shrink part.ascending answer hu).trans part
    exact ⟨kept.store, kept.nodup_vertexList hv, nofun⟩
  · trivial

/-- At each moment of a task, regular placements have been made. -/
theorem During.exists_placements (h : During k t p q)
    (within : ∀ row, (t.view.store.span row).2 ≤ t.view.store.edges.size)
    (hv : t.view.vertexList.Nodup) :
    q = p ∨ ∃ ps, Regular t ps ∧ q = ps.foldl (Placement.put t) (counted p t.stage) := by
  have count : t.stage = .component →
      counted p t.stage = { p with bisections := p.bisections + 1 } := fun stage => by
    rw [stage, counted]
  cases h with
  | taken => exact .inl rfl
  | @components stage vs some =>
      refine .inr ⟨_, regular_components (k := k) within hv some, ?_⟩
      have count : counted p t.stage = { p with decompositions := p.decompositions + 1 } := by
        cases h : t.stage with
        | whole => rfl
        | spectral => rfl
        | component => exact absurd h stage
      rw [count, List.foldl_map]
      congr 1
      funext p v
      exact placeComponent_eq k t p v
  | begun stage =>
      exact .inr ⟨[], .inr fun c hc => absurd hc List.not_mem_nil, (count stage).symm⟩
  | unsettled stage whole =>
      refine .inr ⟨[k.unsettledPlacement t], .inr (List.forall_mem_singleton.mpr ?_), ?_⟩
      · rw [unsettledPlacement]
        split_ifs <;> trivial
      · rw [count stage, placeUnsettled, unsettledPlacement]
        split_ifs <;> rfl
  | @sides stage positive split vs some q placed =>
      rw [← count stage, foldlM_placePart_eq] at placed
      obtain ⟨ps, hps, rfl⟩ := exists_of_map_eq_ok placed
      exact .inr ⟨ps, .inr (tidy_of_mem_partsPlacements hv some.subset hps), rfl⟩
  | @guarded stage positive split vs u some q placed r answer ids dropped =>
      rw [← count stage, foldlM_placePart_eq] at placed
      obtain ⟨ps, hps, rfl⟩ := exists_of_map_eq_ok placed
      have tidy := tidy_of_mem_partsPlacements hv
        (List.Subset.trans (List.subset_append_left _ _) some.subset) hps
      refine .inr ⟨ps ++ [.owned ids], .inr (List.forall_mem_append.mpr ⟨tidy, ?_⟩), ?_⟩
      · exact List.forall_mem_singleton.mpr (by trivial)
      · rw [List.foldl_append]
        rfl

section Moments

variable (within : ∀ row, (s.span row).2 ≤ s.edges.size) (h : Arranged s p)
variable (hq : p.queue = t :: rest) (passed : During k t { p with queue := rest } q)

include within h hq passed

/-- The queue is in order at each moment of a task. -/
theorem Arranged.during : Arranged s q := by
  have mem : t ∈ p.queue := hq ▸ List.mem_cons_self
  have proper := h.proper t mem
  have taken := h.taken hq
  obtain rfl | ⟨ps, regular, rfl⟩ :=
    passed.exists_placements (proper.store.symm ▸ within) proper.nodup
  · exact taken.toArranged
  · have begun := taken.counted t.stage
    rcases regular with ⟨rfl, connected⟩ | tidy
    · have forest := forest_counted { p with queue := rest } t.stage
      rw [List.foldl_cons, List.foldl_nil]
      refine begun.putAgain ?_ connected ?_ ?_
      · rwa [forest]
      · rw [forest]
        exact h.children t mem
      · rw [forest]
        exact h.remainder t mem
    · exact (begun.foldl_put proper.store tidy).toArranged

/-- A cluster without a task stays as it is at each moment of a task of another cluster. -/
theorem Complete.during {f : Forest} (complete : Complete f a p) : Complete f a q := by
  have mem : t ∈ p.queue := hq ▸ List.mem_cons_self
  have proper := h.proper t mem
  have taken := (h.taken hq).counted t.stage
  have other : a ≠ t.cluster := fun same =>
    complete.notMem (same ▸ List.mem_map_of_mem mem)
  have start : Complete f a { p with queue := rest } :=
    { complete with
      notMem := fun mem => complete.notMem (by
        rw [hq, List.map_cons]
        exact List.mem_cons_of_mem _ mem) }
  obtain rfl | ⟨ps, -, rfl⟩ :=
    passed.exists_placements (proper.store.symm ▸ within) proper.nodup
  · exact start
  · exact (start.counted t.stage).foldl_put taken.wellFormed taken.lt_size other ps

end Moments

/-! ## Runs -/

/-- A task is taken from the front of the queue and done. -/
def TaskStep (k : Clustering α) (p q : Progress α) : Prop :=
  ∃ t rest, p.queue = t :: rest ∧ k.perform t { p with queue := rest } = .ok q

/-- What a run passes: the states between two tasks, and the moments of a task. -/
inductive Passes (k : Clustering α) (p : Progress α) : Progress α → Prop
  | between {q : Progress α} (run : ReflTransGen k.TaskStep p q) : Passes k p q
  | during {q r : Progress α} {t : Task α} {rest : List (Task α)}
      (run : ReflTransGen k.TaskStep p q) (next : q.queue = t :: rest)
      (moment : During k t { q with queue := rest } r) : Passes k p r

/-- What the moments of the next task keep holds whatever a run passes. -/
theorem Passes.induction {P : Progress α → Prop} {r : Progress α} (h : P p)
    (keep : ∀ q t rest r, P q → q.queue = t :: rest → During k t { q with queue := rest } r → P r)
    (passed : Passes k p r) : P r := by
  have between : ∀ q, ReflTransGen k.TaskStep p q → P q := by
    intro q run
    induction run with
    | refl => exact h
    | tail _ step ih =>
        obtain ⟨t, rest, next, done⟩ := step
        exact keep _ t rest _ ih next (During.of_perform done)
  cases passed with
  | between run => exact between r run
  | during run next moment => exact keep _ _ _ _ (between _ run) next moment

/-! ## The number of tasks -/

/-- The tasks that are done, and what those in the queue may still cost. -/
def effort (p : Progress α) : Nat :=
  p.decompositions + p.bisections + (p.queue.map Task.cost).sum

/-- A task pays for itself and for all tasks that come from it. -/
theorem effort_le_of_taskStep (hk : Setting.Rule.atLeastOne.refuses k.minSize = false)
    (hsigns : k.SignsEach) (h : Arranged s p) (step : k.TaskStep p q) : effort q ≤ effort p := by
  obtain ⟨t, rest, next, done⟩ := step
  rw [perform_eq] at done
  obtain ⟨ps, hps, rfl⟩ := exists_of_map_eq_ok done
  have cost := cost_placements_lt hk hsigns (h.proper t (next ▸ List.mem_cons_self)).nodup hps
  have count := count_counted { p with queue := rest } t.stage
  rw [effort, (count_foldl_put ..).1, (count_foldl_put ..).2, cost_queue_foldl_put, count,
    queue_counted, effort, next, List.map_cons, List.sum_cons]
  dsimp only
  omega

theorem count_le_effort (within : ∀ row, (s.span row).2 ≤ s.edges.size) (h : Arranged s p)
    (hq : p.queue = t :: rest) (passed : During k t { p with queue := rest } q) :
    q.decompositions + q.bisections ≤ effort p := by
  have proper := h.proper t (hq ▸ List.mem_cons_self)
  have pos := cost_pos t
  rw [effort, hq, List.map_cons, List.sum_cons]
  obtain rfl | ⟨ps, -, rfl⟩ :=
    passed.exists_placements (proper.store.symm ▸ within) proper.nodup
  · dsimp only
    omega
  · have count := count_counted { p with queue := rest } t.stage
    rw [(count_foldl_put ..).1, (count_foldl_put ..).2, count]
    dsimp only
    omega

/-! ## The whole queue -/

section Run

variable (hk : Setting.Rule.atLeastOne.refuses k.minSize = false) (hsigns : k.SignsEach)
variable (within : ∀ row, (s.span row).2 ≤ s.edges.size)

include within

theorem Arranged.of_passes (h : Arranged s p) (passed : Passes k p q) : Arranged s q :=
  Passes.induction h (fun _ _ _ _ arranged => arranged.during within) passed

/-- Between two tasks, a cluster that has a child is complete. -/
theorem Arranged.complete_of_passes (h : Arranged s p) (parent : p.forest.parent d = some a)
    (passed : Passes k p q) : Complete p.forest a q := by
  have child := (h.wellFormed.mem_children_iff d a).mpr parent
  have complete : Complete p.forest a p := by
    refine ⟨h.wellFormed.parent_lt_size parent, fun mem => ?_, rfl, rfl⟩
    obtain ⟨t', ht', rfl⟩ := List.mem_map.mp mem
    rw [h.children t' ht'] at child
    cases child
  refine (Passes.induction (P := fun q => Arranged s q ∧ Complete p.forest a q) ⟨h, complete⟩ ?_
    passed).2
  intro q t rest r both next moment
  exact ⟨both.1.during within next moment, both.2.during within both.1 next moment⟩

include hk hsigns

/-- A run never does more tasks than its first ones may cost. -/
theorem Arranged.count_le (h : Arranged s p) (passed : Passes k p q) :
    q.decompositions + q.bisections ≤ effort p := by
  have effort_le : ∀ q, ReflTransGen k.TaskStep p q → effort q ≤ effort p := by
    intro q run
    induction run with
    | refl => exact le_rfl
    | tail run step ih =>
        exact (effort_le_of_taskStep hk hsigns (h.of_passes within (.between run)) step).trans ih
  cases passed with
  | between run => exact (Nat.le_add_right _ _).trans (effort_le q run)
  | during run next moment =>
      have arranged := h.of_passes within (.between run)
      exact (count_le_effort within arranged next moment).trans (effort_le _ run)

/-- Working off a queue does task after task until none is left or one fails. -/
theorem Arranged.drain (h : Arranged s p) {fuel : Nat}
    (cost : (p.queue.map Task.cost).sum ≤ fuel) :
    match k.drain fuel p with
    | .ok q => ReflTransGen k.TaskStep p q ∧ q.queue = []
    | .error e => ∃ q t rest, ReflTransGen k.TaskStep p q ∧ q.queue = t :: rest ∧
        k.perform t { q with queue := rest } = .error e := by
  induction fuel generalizing p with
  | zero => exact ⟨.refl, queue_eq_nil_of_cost (Nat.le_zero.mp cost)⟩
  | succ fuel ih =>
      cases next : p.queue with
      | nil =>
          rw [Clustering.drain, next]
          exact ⟨.refl, next⟩
      | cons t rest =>
          have first : k.drain (fuel + 1) p =
              (k.perform t { p with queue := rest } >>= k.drain fuel) := by
            rw [Clustering.drain, next]
          rw [first]
          cases done : k.perform t { p with queue := rest } with
          | error e => exact ⟨p, t, rest, .refl, next, done⟩
          | ok q =>
              have step : k.TaskStep p q := ⟨t, rest, next, done⟩
              have effort_le := effort_le_of_taskStep hk hsigns h step
              have count : q.decompositions + q.bisections =
                  p.decompositions + p.bisections + 1 := by
                rw [perform_eq] at done
                obtain ⟨ps, -, rfl⟩ := exists_of_map_eq_ok done
                rw [(count_foldl_put ..).1, (count_foldl_put ..).2, count_counted]
              have later := ih (h.of_passes within (.between (.single step))) (by
                rw [effort, effort] at effort_le
                omega)
              simp only [bind, Except.bind]
              split at later
              · exact ⟨later.1.head step, later.2⟩
              · obtain ⟨r, t', rest', run, failed⟩ := later
                exact ⟨r, t', rest', run.head step, failed⟩

end Run

/-- For a whole number as the minimum size, whatever the bisector and the metric answer: at
every moment of a run for a view of `n` vertices the queue is orderly and no more than
`4 n - 2` tasks have been done, the parent of a cluster that has a task does not change any
more, and the run ends with an empty queue, or at a task where the bisector fails on its
view or the metric on a part of it.  For the empty view there is one decomposition. -/
theorem queuePhase_orderly {m : Int} (hm : k.minSize = .int m) (hpos : 1 ≤ m)
    (hsigns : k.SignsEach) (hv : v.vertexList.Nodup)
    (within : ∀ row, (v.store.span row).2 ≤ v.store.edges.size) :
    (∀ q, Passes k (start v .whole) q → Orderly q ∧
      (1 ≤ v.order → q.decompositions + q.bisections ≤ 4 * v.order - 2)) ∧
    (∀ p t a, ReflTransGen k.TaskStep (start v .whole) p → t ∈ p.queue →
      p.forest.parent t.cluster = some a → ∀ q, Passes k p q →
        q.forest.children a = p.forest.children a ∧
          q.forest.remainder a = p.forest.remainder a) ∧
    match k.queuePhase v .whole with
    | .ok p => ReflTransGen k.TaskStep (start v .whole) p ∧ p.queue = [] ∧
        (v.order = 0 → p.decompositions = 1 ∧ p.bisections = 0)
    | .error e => ∃ p t rest, ReflTransGen k.TaskStep (start v .whole) p ∧ p.queue = t :: rest ∧
        k.perform t { p with queue := rest } = .error e ∧ k.FailsAt t e := by
  have hk := atLeastOne_of_int hm hpos
  have first := arranged_start hv
  refine ⟨fun q passed => ⟨(first.of_passes within passed).toOrderly, fun pos => ?_⟩,
    fun p t a run _ parent q passed => ?_, ?_⟩
  · refine (first.count_le hk hsigns within passed).trans ?_
    simp only [effort, start, List.map_singleton, List.sum_singleton, Task.cost, Stage.cost]
    omega
  · have complete := (first.of_passes within (.between run)).complete_of_passes within parent passed
    exact ⟨complete.children, complete.remainder⟩
  · have drained := first.drain hk hsigns within (cost_start v .whole)
    rw [queuePhase]
    split at drained
    · rename_i p found
      refine ⟨drained.1, drained.2, fun empty => ?_⟩
      have none : v.components = [] := by
        rw [View.components, View.componentIds, empty]
        rfl
      rw [empty] at found
      change Except.ok (k.decompose ⟨v, .whole, 0⟩ _) = .ok p at found
      rw [decompose, none] at found
      cases found
      exact ⟨rfl, rfl⟩
    · obtain ⟨p, t, rest, run, next, failed⟩ := drained
      refine ⟨p, t, rest, run, next, failed, ?_⟩
      have proper := (first.of_passes within (.between run)).proper t (next ▸ List.mem_cons_self)
      rw [perform_eq] at failed
      cases hps : k.placements t with
      | ok ps => rw [hps] at failed; cases failed
      | error e' =>
          rw [hps] at failed
          cases failed
          exact failure_of_placements hm proper.nodup hps

end During

theorem span_le_pairs (row : Nat) : (pairs.store.span row).2 ≤ pairs.store.edges.size := by
  have rows : ∀ row < 4, (pairs.store.span row).2 ≤ pairs.store.edges.size := by decide +kernel
  rcases Nat.lt_or_ge row 4 with h | h
  · exact rows row h
  · rw [Store.span_of_order_le (le_trans (by cbv) h)]
    exact Nat.zero_le _

theorem queuePhase_orderly_pairs : ∃ p, halving.queuePhase pairs .whole = .ok p ∧
    p.queue = [] ∧ (p.decompositions, p.bisections) = (1, 1) ∧
      ∀ q, Passes halving (start pairs .whole) q →
        Orderly q ∧ q.decompositions + q.bisections ≤ 14 := by
  have run := queuePhase_orderly (k := halving) (m := 2) rfl (by decide) signsEach_halving
    nodup_pairs span_le_pairs
  obtain ⟨p, hp, count⟩ : ∃ p, halving.queuePhase pairs .whole = .ok p ∧
      (p.decompositions, p.bisections) = (1, 1) := ⟨_, by cbv, by cbv⟩
  rw [hp] at run
  exact ⟨p, hp, run.2.2.2.1, count, fun q passed =>
    ⟨(run.1 q passed).1, (run.1 q passed).2 (by cbv)⟩⟩

end Clustering

end GraphClustering
