import GraphClustering.Proofs.Forest.Copies
import GraphClustering.Proofs.Forest.Planting
import GraphClustering.Proofs.Forest.Rewiring

/-!
# Tours

A walk under way keeps the clusters that wait on a stack.  A step takes the last one off the
stack, meets it and puts its children there, the first one last.  Ahead of it lie the walks of
those that wait, the next one first, and a step meets the first cluster that lies ahead
(`Tour.Within.met_step`, `Tour.Within.ahead_step`).  So the clusters below a cluster are met in
pre-order, and after as many steps as there are clusters the stack is empty
(`walk_inPreorder`).
-/

namespace GraphClustering.Forest

open Relation

variable {f : Forest} {c d p : ClusterId}

/-- A walk under way: the clusters that wait, the next one last, and those met so far. -/
structure Tour where
  stack : List ClusterId
  met : List ClusterId

namespace Tour

variable {t : Tour}

def start (c : ClusterId) : Tour :=
  ⟨[c], []⟩

/-- Meets the next cluster and puts its children on the stack, the first one last.  A tour whose
stack is empty has ended. -/
def step (f : Forest) (t : Tour) : Tour :=
  match t.stack.getLast? with
  | none => t
  | some c => ⟨t.stack.dropLast ++ (f.children c).reverse, t.met ++ [c]⟩

theorem step_concat (f : Forest) (below met : List ClusterId) (d : ClusterId) :
    step f ⟨below ++ [d], met⟩ = ⟨below ++ (f.children d).reverse, met ++ [d]⟩ := by
  simp only [step, List.getLast?_concat, List.dropLast_concat]

/-- In any forest a walk with some fuel meets what a tour meets in as many steps. -/
theorem met_iterate_step (f : Forest) (n : Nat) (stack met : List ClusterId) :
    ((step f)^[n] ⟨stack.reverse, met⟩).met = met ++ f.walkFrom n stack := by
  induction n generalizing stack met with
  | zero => exact (List.append_nil met).symm
  | succ n ih =>
      rw [Function.iterate_succ_apply]
      cases stack with
      | nil =>
          have ended := ih [] met
          rw [walkFrom_nil] at ended
          exact ended
      | cons c stack =>
          rw [List.reverse_cons, step_concat, ← List.reverse_append, ih, walkFrom,
            List.append_assoc, List.singleton_append]

/-! ## What lies ahead -/

/-- The walks of the clusters that wait, the next one first. -/
def ahead (f : Forest) (t : Tour) : List ClusterId :=
  t.stack.reverse.flatMap f.walk

theorem ahead_start (f : Forest) (c : ClusterId) : (start c).ahead f = f.walk c :=
  List.flatMap_singleton f.walk c

/-- Whether all clusters that wait are clusters of a forest. -/
def Within (f : Forest) (t : Tour) : Prop :=
  ∀ d ∈ t.stack, d < f.size

theorem within_start (hc : c < f.size) : (start c).Within f :=
  fun _ hd => List.mem_singleton.mp hd ▸ hc

namespace Within

variable (hf : f.WellFormed) (within : t.Within f)

include hf within

theorem ahead_eq_nil_iff : t.ahead f = [] ↔ t.stack = [] := by
  rw [ahead, List.flatMap_eq_nil_iff]
  constructor
  · intro empty
    refine List.eq_nil_iff_forall_not_mem.mpr fun d hd => ?_
    have top := mem_walk_self hf (within d hd)
    rw [empty d (List.mem_reverse.mpr hd)] at top
    cases top
  · intro empty d hd
    rw [empty] at hd
    cases hd

/-- A tour has ended, or a step meets the first cluster that lies ahead: its walk goes on with the
walks of its children, which come on top of the stack. -/
theorem step_cases : t.ahead f = [] ∧ t.step f = t ∨
    ∃ d, t.ahead f = d :: (t.step f).ahead f ∧ (t.step f).met = t.met ++ [d] ∧
      (t.step f).Within f := by
  obtain ⟨stack, met⟩ := t
  induction stack using List.reverseRecOn with
  | nil => exact .inl ⟨rfl, rfl⟩
  | append_singleton below d _ =>
      refine .inr ⟨d, ?_, ?_, ?_⟩
      · rw [step_concat, ahead, ahead, List.reverse_concat, List.flatMap_cons,
          walk_eq hf (within d List.mem_concat_self), List.reverse_append, List.reverse_reverse,
          List.flatMap_append, List.cons_append]
      · rw [step_concat]
      · rw [step_concat]
        intro e he
        rcases List.mem_append.mp he with he | he
        · exact within e (List.mem_append_left _ he)
        · exact hf.child_lt_size (List.mem_reverse.mp he)

theorem met_step : (t.step f).met = t.met ++ (t.ahead f).take 1 := by
  rcases within.step_cases hf with ⟨empty, same⟩ | ⟨d, next, met, -⟩
  · rw [empty, same]
    exact (List.append_nil t.met).symm
  · rw [met, next]
    rfl

theorem ahead_step : (t.step f).ahead f = (t.ahead f).drop 1 := by
  rcases within.step_cases hf with ⟨empty, same⟩ | ⟨d, next, -, -⟩
  · rw [same, empty]
    rfl
  · rw [next]
    rfl

theorem step : (t.step f).Within f := by
  rcases within.step_cases hf with ⟨-, same⟩ | ⟨d, -, -, inside⟩
  · rw [same]
    exact within
  · exact inside

/-- Some steps meet as many of the clusters that lie ahead, and the others still lie ahead. -/
theorem iterate_step (n : Nat) : ((Tour.step f)^[n] t).Within f ∧
    ((Tour.step f)^[n] t).met = t.met ++ (t.ahead f).take n ∧
      ((Tour.step f)^[n] t).ahead f = (t.ahead f).drop n := by
  induction n with
  | zero => exact ⟨within, (List.append_nil t.met).symm, rfl⟩
  | succ n ih =>
      obtain ⟨inside, met, rest⟩ := ih
      rw [Function.iterate_succ_apply']
      refine ⟨inside.step hf, ?_, ?_⟩
      · rw [inside.met_step hf, met, rest, List.append_assoc, ← List.take_add]
      · rw [inside.ahead_step hf, rest, List.drop_drop]

/-- A tour ends after as many steps as clusters lie ahead. -/
theorem stack_iterate_step_eq_nil_iff (n : Nat) :
    ((Tour.step f)^[n] t).stack = [] ↔ (t.ahead f).length ≤ n := by
  obtain ⟨inside, -, rest⟩ := within.iterate_step hf n
  rw [← inside.ahead_eq_nil_iff hf, rest, List.drop_eq_nil_iff]

end Within

end Tour

/-! ## Pre-order -/

section Preorder

variable (hf : f.WellFormed) (hc : c < f.size)

include hf hc

/-- A cluster is met before its children. -/
theorem parent_before_child (hp : p ∈ f.walk c) (hd : d ∈ f.children p) :
    [p, d].Sublist (f.walk c) := by
  have below : d ∈ (f.children p).flatMap f.walk :=
    List.mem_flatMap.mpr ⟨d, hd, mem_walk_self hf (hf.child_lt_size hd)⟩
  have part := (walk_isInfix hf hc hp).sublist
  rw [walk_eq hf (lt_size_of_mem_walk hf hc hp)] at part
  exact ((List.singleton_sublist.mpr below).cons_cons p).trans part

/-- The recursion over the children has one solution. -/
theorem eq_walk_of_recursive {w : ClusterId → List ClusterId}
    (recursive : ∀ d < f.size, w d = d :: (f.children d).flatMap w) : w c = f.walk c := by
  refine hf.induction_up (P := fun c => w c = f.walk c) (fun d hd ih => ?_) hc
  rw [recursive d hd, walk_eq hf hd, List.flatMap_congr ih]

end Preorder

/-- Whether the walk from a cluster is in pre-order.  A tour meets its clusters one by one and then
ends, so that fuel for as many is enough.  The walk is the only solution of the recursion over the
children in their order: each cluster that is reached from child to child occurs once, after its
parent, and the remainders are put together in this order. -/
structure InPreorder (f : Forest) (c : ClusterId) : Prop where
  met : ∀ n, ((Tour.step f)^[n] (.start c)).met = (f.walk c).take n
  ended_iff : ∀ n, ((Tour.step f)^[n] (.start c)).stack = [] ↔ (f.walk c).length ≤ n
  fuel : ∀ n, f.walkFrom n [c] = (f.walk c).take n
  recursive : f.walk c = c :: (f.children c).flatMap f.walk
  unique : ∀ w : ClusterId → List ClusterId,
    (∀ d < f.size, w d = d :: (f.children d).flatMap w) → w c = f.walk c
  nodup : (f.walk c).Nodup
  mem_iff : ∀ d, d ∈ f.walk c ↔ ReflTransGen (fun p d => d ∈ f.children p) c d
  parent_first : ∀ p ∈ f.walk c, ∀ d ∈ f.children p, [p, d].Sublist (f.walk c)
  aggregate : f.aggregate c = (f.walk c).flatMap f.remainder
  aggregate_recursive : f.aggregate c = f.remainder c ++ (f.children c).flatMap f.aggregate

/-- The walk with a stack is the recursive pre-order. -/
theorem walk_inPreorder (hf : f.WellFormed) (hc : c < f.size) : f.InPreorder c := by
  have within := Tour.within_start hc
  have ahead := Tour.ahead_start f c
  have met : ∀ n, ((Tour.step f)^[n] (.start c)).met = (f.walk c).take n := fun n => by
    rw [(within.iterate_step hf n).2.1, ahead]
    rfl
  constructor
  case met => exact met
  case ended_iff => exact fun n => by rw [within.stack_iterate_step_eq_nil_iff hf n, ahead]
  case fuel => exact fun n => (Tour.met_iterate_step f n [c] []).symm.trans (met n)
  case recursive => exact walk_eq hf hc
  case unique => exact fun w => eq_walk_of_recursive hf hc
  case nodup => exact nodup_walk hf hc
  case mem_iff => exact fun d => mem_walk_iff_reachable hf hc
  case parent_first => exact fun p hp d hd => parent_before_child hf hc hp hd
  case aggregate => rfl
  case aggregate_recursive => exact aggregate_eq hf hc

/-- Five clusters, of which the first child of the root was moved behind the second one. -/
def regrown : Forest :=
  Forest.reparent
    (plant [⟨none, [9]⟩, ⟨some 0, [4, 4]⟩, ⟨some 0, [3]⟩, ⟨some 1, [-7]⟩, ⟨some 1, []⟩]) 1 0

theorem wellFormed_regrown : regrown.WellFormed := by
  refine wellFormed_reparent (p := 0) (wellFormed_plant fun i x hx p hp => ?_) ?_ ?_
  · match i with
    | 0 | 1 | 2 | 3 | 4 =>
        cases hx
        cases hp <;> decide
    | i + 5 => cases hx
  · decide
  · decide

/-- After four steps the last child of the cluster that was moved waits. -/
theorem walk_inPreorder_regrown : regrown.WellFormed ∧ 0 < regrown.size ∧
    regrown.walk 0 = [0, 2, 1, 3, 4] ∧ regrown.aggregate 0 = [9, 3, 4, 4, -7] ∧
      ((Tour.step regrown)^[4] (.start 0)).met = [0, 2, 1, 3] ∧
        ((Tour.step regrown)^[4] (.start 0)).stack ≠ [] ∧
          ((Tour.step regrown)^[5] (.start 0)).stack = [] := by
  have inside : 0 < regrown.size := by decide
  have walk : regrown.walk 0 = [0, 2, 1, 3, 4] := by decide
  have order := walk_inPreorder wellFormed_regrown inside
  refine ⟨wellFormed_regrown, inside, walk, ?_, ?_, ?_, ?_⟩
  · rw [order.aggregate, walk]
    decide
  · rw [order.met, walk]
    rfl
  · rw [ne_eq, order.ended_iff, walk]
    decide
  · rw [order.ended_iff, walk]
    decide

end GraphClustering.Forest
