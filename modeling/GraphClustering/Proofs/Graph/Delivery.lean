import GraphClustering.Proofs.Graph.Submatrix

/-!
# Chunks handed on in any order

Workers take up the chunks of a view one after the other and hand on their edges whenever
they are done, so the calls of a consumer come in any order (`Pool`).  All edges of a vertex
lie in one chunk, so the calls taken together still list the edges of each vertex in order,
and each sum of weights has just one summand that may not be zero.  What consumers make of
the calls is therefore the same for all sizes of chunks, numbers of workers and orders
(`traversal_order_free`).
-/

namespace GraphClustering

open Relation

variable {α : Type}

/-! ## Workers -/

/-- Workers under way: the chunks that wait, those being worked on, and the calls of the
consumer so far.  A consumer locks its state, so that there is one call after the other. -/
structure Pool (α : Type) where
  waiting : List (List (Edge α))
  running : List (List (Edge α))
  calls : List (List (Edge α))

namespace Pool

variable {workers : Nat} {p q : Pool α} {chunks : List (List (Edge α))}

def start (chunks : List (List (Edge α))) : Pool α :=
  ⟨chunks, [], []⟩

def AtRest (p : Pool α) : Prop :=
  p.waiting = [] ∧ p.running = []

/-- The calls that are made for chunks: none for one without edges. -/
def callsFor (chunks : List (List (Edge α))) : List (List (Edge α)) :=
  chunks.filter fun c => !c.isEmpty

/-- A free worker takes up the next chunk, or a busy one is done with its own. -/
inductive Step (workers : Nat) : Pool α → Pool α → Prop
  | start {c : List (Edge α)} {waiting running calls : List (List (Edge α))}
      (free : running.length < workers) :
      Step workers ⟨c :: waiting, running, calls⟩ ⟨waiting, c :: running, calls⟩
  | finish {c : List (Edge α)} {waiting before after calls : List (List (Edge α))} :
      Step workers ⟨waiting, before ++ c :: after, calls⟩
        ⟨waiting, before ++ after, calls ++ callsFor [c]⟩

/-- The calls that were made or are still to be made. -/
def pending (p : Pool α) : List (List (Edge α)) :=
  p.calls ++ callsFor (p.running ++ p.waiting)

theorem Step.pending_perm (h : Step workers p q) : p.pending.Perm q.pending := by
  cases h with
  | start => exact (List.perm_middle.filter _).append_left _
  | @finish c waiting before after calls =>
      have first : (before ++ c :: after ++ waiting).Perm (c :: (before ++ after ++ waiting)) := by
        rw [List.append_assoc, List.append_assoc]
        exact List.perm_middle
      change (calls ++ callsFor (before ++ c :: after ++ waiting)).Perm
        (calls ++ callsFor [c] ++ callsFor (before ++ after ++ waiting))
      rw [List.append_assoc calls, callsFor, callsFor, callsFor, ← List.filter_append]
      exact (first.filter _).append_left _

theorem pending_perm_of_run (h : ReflTransGen (Step workers) p q) : p.pending.Perm q.pending := by
  induction h with
  | refl => exact List.Perm.refl _
  | tail _ step ih => exact ih.trans step.pending_perm

/-- When all work is done, the chunks have been handed on, each once. -/
theorem calls_perm_of_run (h : ReflTransGen (Step workers) (start chunks) p) (rest : p.AtRest) :
    p.calls.Perm (callsFor chunks) := by
  have all := pending_perm_of_run h
  rw [pending, pending, rest.1, rest.2] at all
  simpa [start, callsFor] using all.symm

/-- As long as a chunk is left, some worker can go on. -/
theorem exists_step (some : 0 < workers) (h : ¬ p.AtRest) : ∃ q, Step workers p q := by
  obtain ⟨waiting, running, calls⟩ := p
  cases running with
  | cons c running => exact ⟨_, @Step.finish α workers c waiting [] running calls⟩
  | nil =>
      cases waiting with
      | nil => exact absurd ⟨rfl, rfl⟩ h
      | cons c waiting => exact ⟨_, .start some⟩

/-- What is left to be done: to take up a chunk and to hand it on. -/
def remaining (p : Pool α) : Nat :=
  2 * p.waiting.length + p.running.length

theorem Step.remaining_lt (h : Step workers p q) : q.remaining < p.remaining := by
  cases h with
  | start =>
      simp only [remaining, List.length_cons]
      omega
  | finish =>
      simp only [remaining, List.length_append, List.length_cons]
      omega

theorem wellFounded_step (workers : Nat) :
    WellFounded fun q p : Pool α => Step workers p q :=
  Subrelation.wf Step.remaining_lt (InvImage.wf remaining Nat.lt_wfRel.wf)

end Pool

namespace View

variable {v : View α} {calls bs : List (List (Edge α))} {b b' : List (Edge α)} {size : Int}
variable {e : Edge α} {i : Nat}

/-! ## Calls without a common source -/

/-- Whether no vertex has edges in both of two calls. -/
def Apart (b b' : List (Edge α)) : Prop :=
  ∀ e ∈ b, ∀ e' ∈ b', e.source.toNat ≠ e'.source.toNat

theorem Apart.symm (h : Apart b b') : Apart b' b := fun e he e' he' =>
  (h e' he' e he).symm

/-- Chunks of any size have no common source. -/
theorem apart_chunks (v : View α) (hs : 0 < size) : (v.chunks size).Pairwise Apart := by
  have nodup : ((rowChunks v.order size).flatMap fun c =>
      List.range' c.1.toNat (c.2.toNat - c.1.toNat)).Nodup := by
    rw [flatMap_rowChunks hs]
    exact List.nodup_range
  refine List.pairwise_map.mpr ((List.nodup_flatMap.mp nodup).2.imp fun disjoint e he e' he' => ?_)
  obtain ⟨i, hi, he⟩ := List.mem_flatMap.mp he
  obtain ⟨j, hj, he'⟩ := List.mem_flatMap.mp he'
  rw [source_of_mem_edgesOf he, source_of_mem_edgesOf he', Int.toNat_natCast, Int.toNat_natCast]
  rintro rfl
  exact disjoint hi hj

theorem filter_eq_nil_of_apart (h : Apart b b') (i : Nat) :
    b.filter (fun e => e.source.toNat = i) = [] ∨ b'.filter (fun e => e.source.toNat = i) = [] := by
  by_contra both
  obtain ⟨left, right⟩ := not_or.mp both
  obtain ⟨e, he⟩ := List.exists_mem_of_ne_nil _ left
  obtain ⟨e', he'⟩ := List.exists_mem_of_ne_nil _ right
  obtain ⟨he, source⟩ := List.mem_filter.mp he
  obtain ⟨he', source'⟩ := List.mem_filter.mp he'
  exact h e he e' he' ((of_decide_eq_true source).trans (of_decide_eq_true source').symm)

/-- In whatever order the calls come, they list the edges of each vertex in one order. -/
theorem filter_flatten_eq_of_perm (h : calls.Perm bs) (apart : bs.Pairwise Apart) (i : Nat) :
    calls.flatten.filter (fun e => e.source.toNat = i) =
      bs.flatten.filter fun e => e.source.toNat = i := by
  induction h with
  | nil => rfl
  | cons b _ ih =>
      rw [List.flatten_cons, List.flatten_cons, List.filter_append, List.filter_append,
        ih (List.pairwise_cons.mp apart).2]
  | swap b b' rest =>
      have two := (List.pairwise_cons.mp apart).1 b' List.mem_cons_self
      simp only [List.flatten_cons, List.filter_append]
      rcases filter_eq_nil_of_apart two i with none | none <;> rw [none] <;> rfl
  | trans _ h' ih ih' => exact (ih (h'.symm.pairwise apart Apart.symm)).trans (ih' apart)

/-! ## Sums with one summand -/

section Sums

variable [Scalar α]

/-- Whether adding zero changes nothing: neither zero nor a sum that started from zero. -/
structure ZeroNeutral (α : Type) [Scalar α] : Prop where
  zero : (0 : α) + 0 = 0
  sum : ∀ x : α, 0 + x + 0 = 0 + x

theorem ZeroNeutral.of_add_zero (h : ∀ x : α, x + 0 = x) : ZeroNeutral α :=
  ⟨h 0, fun x => h (0 + x)⟩

theorem sumOf_of_filter_eq_nil (none : b.filter (fun e => e.source.toNat = i) = []) :
    sumOf b i = 0 := by
  rw [sumOf, none]
  rfl

theorem foldl_sumOf_eq_self {s : α} (still : s + 0 = s)
    (none : ∀ b ∈ calls, b.filter (fun e => e.source.toNat = i) = []) :
    calls.foldl (fun s b => s + sumOf b i) s = s := by
  induction calls with
  | nil => rfl
  | cons b calls ih =>
      rw [List.foldl_cons, sumOf_of_filter_eq_nil (none b List.mem_cons_self), still]
      exact ih fun b hb => none b (List.mem_cons_of_mem _ hb)

/-- A vertex with edges in one call at most is summed as if there were a single call. -/
theorem foldl_sumOf_of_apart (neutral : ZeroNeutral α) (apart : calls.Pairwise Apart)
    (some : calls ≠ []) :
    calls.foldl (fun s b => s + sumOf b i) 0 = 0 + sumOf calls.flatten i := by
  induction calls with
  | nil => exact absurd rfl some
  | cons b calls ih =>
      obtain ⟨first, rest⟩ := List.pairwise_cons.mp apart
      rw [List.foldl_cons, List.flatten_cons]
      by_cases own : b.filter (fun e => e.source.toNat = i) = []
      · have later : sumOf (b ++ calls.flatten) i = sumOf calls.flatten i := by
          rw [sumOf, List.filter_append, own, List.nil_append, ← sumOf]
        rw [sumOf_of_filter_eq_nil own, neutral.zero, later]
        cases calls with
        | nil => exact neutral.zero.symm
        | cons c calls => exact ih rest (List.cons_ne_nil _ _)
      · have none : ∀ c ∈ calls, c.filter (fun e => e.source.toNat = i) = [] := fun c hc =>
          (filter_eq_nil_of_apart (first c hc) i).resolve_left own
        have others : calls.flatten.filter (fun e => e.source.toNat = i) = [] := by
          rw [List.filter_flatten, List.flatten_eq_nil_iff]
          exact List.forall_mem_map.mpr none
        have alone : sumOf (b ++ calls.flatten) i = sumOf b i := by
          rw [sumOf, List.filter_append, others, List.append_nil, ← sumOf]
        rw [alone, foldl_sumOf_eq_self (neutral.sum _) none]

end Sums

/-! ## The single chunk -/

/-- The calls for a single chunk of all vertices. -/
def inline (v : View α) : List (List (Edge α)) :=
  Pool.callsFor [v.edges]

theorem flatten_inline (v : View α) : v.inline.flatten = v.edges := by
  rw [inline, Pool.callsFor, List.flatten_filter_not_isEmpty, List.flatten_singleton]

/-- One chunk is enough if it is as large as the view. -/
theorem callsFor_chunks_of_le (some : 0 < size) (all : (v.order : Int) ≤ size) :
    Pool.callsFor (v.chunks size) = v.inline := by
  rcases Nat.eq_zero_or_pos v.order with none | several
  · have edges : v.edges = [] := by
      rw [edges_eq_flatMap, none]
      rfl
    have chunks : v.chunks size = [] := by
      rw [chunks, rowChunks, chunkCount, none]
      simp
    rw [chunks, inline, edges]
    rfl
  · have count : chunkCount v.order size = 1 := by
      have low : -(v.order : Int) / size = -1 :=
        Int.ediv_eq_neg_one_of_neg_of_le (by omega) (by omega)
      rw [chunkCount, Int.fdiv_eq_ediv_of_nonneg _ some.le, low]
      rfl
    have chunks : v.chunks size = [v.edges] := by
      rw [chunks, rowChunks, count]
      simp [all, edges]
    rw [chunks, inline]

theorem batches_of_workers (hs : 0 < size) {workers : Option Int}
    (hw : 0 ≤ orDefault workers 1) :
    v.batches (some size) workers = .ok (Pool.callsFor (v.chunks size)) := by
  have given : orDefault (some size) defaultChunk = size := if_neg hs.ne'
  rw [batches, given]
  exact if_neg fun h => not_lt.mpr hw h.2

/-- Whether consumers make the same of some calls as of others: a count of the undirected edges,
a matrix, and sums of weights. -/
structure Agree [Scalar α] (order : Nat) (calls calls' : List (List (Edge α))) : Prop where
  count : countEdges calls = countEdges calls'
  matrix : Matrix.ofEdges order calls.flatten = Matrix.ofEdges order calls'.flatten
  weights : ZeroNeutral α → accumulate order calls = accumulate order calls'

theorem flatten_perm_of_perm (hs : 0 < size) (h : calls.Perm (Pool.callsFor (v.chunks size))) :
    calls.flatten.Perm v.edges := by
  have all := h.flatten
  rwa [Pool.callsFor, List.flatten_filter_not_isEmpty, flatten_chunks v hs] at all

theorem inline_eq_nil_iff (v : View α) : v.inline = [] ↔ v.edges = [] := by
  rw [inline, Pool.callsFor]
  simp

/-- There are no calls only if there are no edges. -/
theorem eq_nil_iff_of_perm (hs : 0 < size) (h : calls.Perm (Pool.callsFor (v.chunks size))) :
    calls = [] ↔ v.edges = [] := by
  have edges := flatten_perm_of_perm hs h
  constructor
  · rintro rfl
    exact edges.nil_eq.symm
  · intro none
    rw [none] at edges
    refine List.eq_nil_iff_forall_not_mem.mpr fun c hc => ?_
    have empty : c = [] := List.flatten_eq_nil_iff.mp edges.eq_nil c hc
    have call := (List.mem_filter.mp (h.mem_iff.mp hc)).2
    rw [empty] at call
    cases call

/-- What consumers make of the calls depends neither on the chunks nor on the order. -/
theorem agree_of_perm [Scalar α] (hs : 0 < size) (h : calls.Perm (Pool.callsFor (v.chunks size))) :
    Agree v.order calls v.inline := by
  have apart : (Pool.callsFor (v.chunks size)).Pairwise Apart := (v.apart_chunks hs).filter _
  have edges := flatten_perm_of_perm hs h
  have in_order : ∀ i : Nat, calls.flatten.filter (fun e => e.source.toNat = i) =
      v.inline.flatten.filter fun e => e.source.toNat = i := fun i => by
    rw [filter_flatten_eq_of_perm h apart, Pool.callsFor, List.flatten_filter_not_isEmpty,
      flatten_chunks v hs, flatten_inline]
  refine ⟨?_, ?_, fun neutral => ?_⟩
  · rw [countEdges_eq, countEdges_eq, flatten_inline]
    exact edges.countP_eq _
  · have rows : (Matrix.ofEdges v.order calls.flatten).rows =
        (Matrix.ofEdges v.order v.inline.flatten).rows := by
      simp only [Matrix.rows_ofEdges, in_order]
    exact congrArg (Matrix.mk v.order) rows
  · have apart' := h.symm.pairwise apart Apart.symm
    have same : calls = [] ↔ v.inline = [] := by
      rw [eq_nil_iff_of_perm hs h, inline_eq_nil_iff]
    rw [accumulate_eq, accumulate_eq]
    by_cases none : calls = []
    · rw [none, same.mp none]
    · have sums : ∀ i, sumOf calls.flatten i = sumOf v.inline.flatten i := fun i => by
        rw [sumOf, in_order, ← sumOf]
      have whole : v.inline.Pairwise Apart := by
        rw [inline, Pool.callsFor]
        exact (List.pairwise_singleton Apart v.edges).filter _
      simp only [foldl_sumOf_of_apart neutral apart' none,
        foldl_sumOf_of_apart neutral whole (same.not.mp none), sums]

/-! ## Every order -/

/-- Whether calls hand on each edge of a view once: in number, and, where rows and entries are in
order, each stored weight between vertices of the view by itself. -/
structure Exhausts (calls : List (List (Edge α))) (v : View α) : Prop where
  edges : calls.flatten.Perm v.edges
  mem : v.rows.toList.Pairwise (· < ·) →
    ∀ e, e ∈ calls.flatten ↔ ∃ i : Nat, e.source = i ∧ v.Stores i e.target e.weight
  nodup : v.store.Compressed → v.rows.toList.Pairwise (· < ·) → calls.flatten.Nodup

theorem exhausts_of_perm (hs : 0 < size) (h : calls.Perm (Pool.callsFor (v.chunks size))) :
    Exhausts calls v where
  edges := flatten_perm_of_perm hs h
  mem ascending e := by rw [(flatten_perm_of_perm hs h).mem_iff, mem_edges ascending]
  nodup compressed ascending := by
    have ascend := edges_ascend compressed ascending
    exact (flatten_perm_of_perm hs h).symm.nodup (ascend.imp Edge.Precedes.ne)

/-- The aggregates of a view are those of a single call. -/
theorem aggregates_inline [Scalar α] (staffed : v.Staffed) :
    v.size = .ok (countEdges v.inline) ∧
      v.adjacency = .ok (.ofEdges v.order v.inline.flatten) ∧
        (ZeroNeutral α → v.weights = .ok (accumulate v.order v.inline)) := by
  have large : 0 < defaultChunk := by decide
  have run : v.batches none v.workers = .ok (Pool.callsFor (v.chunks defaultChunk)) :=
    batches_of_staffed staffed
  have same := agree_of_perm (v := v) large (List.Perm.refl _)
  refine ⟨?_, ?_, fun neutral => ?_⟩
  · rw [size, run, ← same.count]
    rfl
  · rw [adjacency, run, ← same.matrix]
    rfl
  · rw [weights, run, ← same.weights neutral]
    rfl

/-- Workers hand on each edge of a view once, whatever the size of the chunks and the number of
workers and whoever is done first, and they come to an end.  The count, the matrix and the sums
of weights are those of the single chunk of all vertices, and these are the size, the adjacency
matrix and the weights of the view.  The weights need no law of addition but that zero adds
nothing. -/
theorem traversal_order_free [Scalar α] (v : View α) {size workers : Int} (hs : 1 ≤ size)
    (hw : 1 ≤ workers) :
    v.batches (some size) (some workers) = .ok (Pool.callsFor (v.chunks size)) ∧
    (WellFounded fun q p : Pool α => Pool.Step workers.toNat p q) ∧
    (∀ p, ReflTransGen (Pool.Step workers.toNat) (Pool.start (v.chunks size)) p →
      p.AtRest ∧ p.calls.Perm (Pool.callsFor (v.chunks size)) ∨
        ¬ p.AtRest ∧ ∃ q, Pool.Step workers.toNat p q) ∧
    (∀ calls : List (List (Edge α)), calls.Perm (Pool.callsFor (v.chunks size)) →
      Exhausts calls v ∧ Agree v.order calls v.inline) ∧
    (∀ whole : Int, 1 ≤ whole → v.order ≤ whole →
      v.batches (some whole) (some workers) = .ok v.inline) ∧
    (v.Staffed →
      v.size = .ok (countEdges v.inline) ∧
      v.adjacency = .ok (.ofEdges v.order v.inline.flatten) ∧
      (ZeroNeutral α → v.weights = .ok (accumulate v.order v.inline))) := by
  have staffed : 0 ≤ orDefault (some workers) 1 := by
    rw [orDefault, if_neg (by omega)]
    omega
  have worker : 0 < workers.toNat := by omega
  refine ⟨batches_of_workers hs staffed, Pool.wellFounded_step _, fun p run => ?_,
    fun calls h => ⟨exhausts_of_perm hs h, agree_of_perm hs h⟩, fun whole some all => ?_,
    aggregates_inline⟩
  · by_cases rest : p.AtRest
    · exact .inl ⟨rest, Pool.calls_perm_of_run run rest⟩
    · exact .inr ⟨rest, Pool.exists_step worker rest⟩
  · rw [batches_of_workers some staffed, callsFor_chunks_of_le some all]

/-- A path of three vertices. -/
def path : View ℚ :=
  ⟨⟨#[0, 1, 3, 4], #[1, 0, 2, 1], #[2, 2, 3, 3], #[4, 7, 9]⟩, #[0, 1, 2], some 2⟩

/-- Two workers that are done with the first vertex of the path last. -/
theorem traversal_order_free_path : ∃ p, ReflTransGen (Pool.Step 2) (Pool.start (path.chunks 1)) p ∧
    p.AtRest ∧ p.calls.map List.length = [2, 1, 1] ∧ Exhausts p.calls path ∧
      path.size = .ok (countEdges p.calls) ∧
        path.adjacency = .ok (.ofEdges path.order p.calls.flatten) ∧
          path.weights = .ok (accumulate path.order p.calls) := by
  obtain ⟨-, -, runs, orders, -, aggregates⟩ :=
    traversal_order_free path (by decide : (1 : Int) ≤ 1) (by decide : (1 : Int) ≤ 2)
  obtain ⟨a, b, c, chunks⟩ : ∃ a b c, path.chunks 1 = [a, b, c] := ⟨_, _, _, rfl⟩
  have run : ReflTransGen (Pool.Step 2) (Pool.start [a, b, c]) ⟨[], [], Pool.callsFor [b] ++
      Pool.callsFor [c] ++ Pool.callsFor [a]⟩ := by
    refine .head (.start Nat.zero_lt_two) (.head (.start Nat.one_lt_two) ?_)
    refine .head (@Pool.Step.finish _ 2 b [c] [] [a] []) (.head (.start Nat.one_lt_two) ?_)
    refine .head (@Pool.Step.finish _ 2 c [] [] [a] _) (.single ?_)
    exact @Pool.Step.finish _ 2 a [] [] [] _
  rw [← chunks] at run
  have delivered := ((runs _ run).resolve_right fun stuck => stuck.1 ⟨rfl, rfl⟩).2
  obtain ⟨exhausts, agree⟩ := orders _ delivered
  have neutral : ZeroNeutral ℚ := .of_add_zero add_zero
  obtain ⟨size, adjacency, weights⟩ := aggregates (.inl (by decide))
  refine ⟨_, run, ⟨rfl, rfl⟩, ?_, exhausts, agree.count ▸ size, agree.matrix ▸ adjacency,
    agree.weights neutral ▸ weights neutral⟩
  cases chunks
  rfl

end View

end GraphClustering
