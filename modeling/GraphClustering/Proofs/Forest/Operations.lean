import GraphClustering.Proofs.Forest.Rewiring

/-!
# Runs of operations

The operations on clusters, one after the other in any order.  Whatever they are, the
links of all clusters agree afterwards if they did before.  There is no cycle afterwards
just if no cluster was adopted by itself or by one below it (`run_kept`).
-/

namespace GraphClustering.Forest

open Relation

variable {f g : Forest} {c d p : ClusterId} {cs : List ClusterId}

/-! ## Cycles -/

/-- Whether a cluster is the parent of another one. -/
def Up (f : Forest) (c p : ClusterId) : Prop :=
  f.parent c = some p

/-- Whether no cluster is above itself. -/
def Acyclic (f : Forest) : Prop :=
  ∀ c, ¬ TransGen f.Up c c

theorem Agreeing.lt_size_of_above (hf : f.Agreeing) (h : TransGen f.Up c p) : p < f.size := by
  obtain ⟨_, _, up⟩ := TransGen.tail'_iff.mp h
  exact hf.parent_lt_size up

/-- The number of clusters above a cluster rises from parents to children. -/
theorem Acyclic.ncard_above_lt (acyclic : f.Acyclic) (hf : f.Agreeing) (up : f.Up c p) :
    {a | TransGen f.Up p a}.ncard < {a | TransGen f.Up c a}.ncard := by
  have finite : {a | TransGen f.Up c a}.Finite :=
    (Set.finite_lt_nat f.size).subset fun a ha => hf.lt_size_of_above ha
  refine Set.ncard_lt_ncard ⟨fun a ha => .head up ha, fun same => acyclic p ?_⟩ finite
  exact same (TransGen.single up)

theorem wellFormed_iff : f.WellFormed ↔ f.Agreeing ∧ f.Acyclic := by
  constructor
  · intro hf
    obtain ⟨rank, hrank⟩ := hf.acyclic
    have descend : ∀ {c d}, TransGen f.Up c d → rank d < rank c := fun above => by
      induction above with
      | single up => exact hrank _ _ up
      | tail _ up ih => exact (hrank _ _ up).trans ih
    exact ⟨hf.agreeing, fun c above => lt_irrefl _ (descend above)⟩
  · rintro ⟨hf, acyclic⟩
    exact ⟨hf.mem_children_iff, hf.nodup_children, fun c => {a | TransGen f.Up c a}.ncard,
      fun c p up => acyclic.ncard_above_lt hf up⟩

/-- No cycle comes about where every parent was above its child before. -/
theorem Acyclic.of_up (acyclic : f.Acyclic) (above : ∀ c p, g.Up c p → TransGen f.Up c p) :
    g.Acyclic :=
  fun c cycle => acyclic c (TransGen.closed above c c cycle)

section Adopted

/-! Some clusters get a new parent, and all others keep theirs. -/

variable (adopted : ∀ d, g.parent d = if d ∈ cs then some p else f.parent d)

include adopted

theorem up_of_mem (hc : c ∈ cs) : g.Up c p := by
  rw [Up, adopted, if_pos hc]

theorem up_iff_of_notMem (hc : c ∉ cs) : g.Up c d ↔ f.Up c d := by
  rw [Up, adopted, if_neg hc, Up]

/-- From below an adopted cluster the parents still lead to one. -/
theorem exists_adopted_above (hc : c ∈ cs) (above : ReflTransGen f.Up d c) :
    ∃ a ∈ cs, ReflTransGen g.Up d a := by
  induction above using ReflTransGen.head_induction_on with
  | refl => exact ⟨c, hc, .refl⟩
  | @head d e up _ ih =>
      by_cases hd : d ∈ cs
      · exact ⟨d, hd, .refl⟩
      · obtain ⟨a, ha, path⟩ := ih
        exact ⟨a, ha, .head ((up_iff_of_notMem adopted hd).mpr up) path⟩

/-- The parents of the adopter are the same if none of them is adopted. -/
theorem above_of_adopted (free : ∀ c ∈ cs, ¬ ReflTransGen f.Up p c)
    (above : ReflTransGen g.Up p d) : ReflTransGen f.Up p d := by
  induction above with
  | refl => exact .refl
  | tail _ up ih => exact ih.tail ((up_iff_of_notMem adopted fun hc => free _ hc ih).mp up)

/-- A line of parents was there before, or leads over an adopted cluster to the adopter. -/
theorem above_cases (above : TransGen g.Up c d) : TransGen f.Up c d ∨
    ∃ a ∈ cs, ReflTransGen g.Up c a ∧ ReflTransGen g.Up p d := by
  have step : ∀ {a b}, ReflTransGen g.Up c a → g.Up a b → f.Up a b ∨
      ∃ a ∈ cs, ReflTransGen g.Up c a ∧ ReflTransGen g.Up p b := by
    intro a b path up
    by_cases ha : a ∈ cs
    · obtain rfl := Option.some_inj.mp (up.symm.trans (up_of_mem adopted ha))
      exact .inr ⟨a, ha, path, .refl⟩
    · exact .inl ((up_iff_of_notMem adopted ha).mp up)
  induction above with
  | single up => exact (step .refl up).imp_left .single
  | tail path up ih =>
      rcases ih with old | ⟨a, ha, below, rest⟩
      · exact (step path.to_reflTransGen up).imp_left old.tail
      · exact .inr ⟨a, ha, below, rest.tail up⟩

/-- A forest stays acyclic just if no cluster is adopted by itself or by one below it. -/
theorem acyclic_adopted_iff (acyclic : f.Acyclic) :
    g.Acyclic ↔ ∀ c ∈ cs, ¬ ReflTransGen f.Up p c := by
  constructor
  · intro acyclic' c hc above
    obtain ⟨a, ha, path⟩ := exists_adopted_above adopted hc above
    exact acyclic' a (.head' (up_of_mem adopted ha) path)
  · intro free c cycle
    rcases above_cases adopted cycle with old | ⟨a, ha, below, rest⟩
    · exact acyclic c old
    · exact free a ha (above_of_adopted adopted free (rest.trans below))

end Adopted

/-! ## Operations -/

/-- A call of one of the operations on clusters. -/
inductive Operation where
  | create (parent : Option ClusterId)
  | addChildren (p : ClusterId) (cs : List ClusterId)
  | detach (c : ClusterId)
  | reparent (c p : ClusterId)
  | assimilate (p c : ClusterId) (withRemainder : Bool)
  | addToRemainder (c : ClusterId) (ids : List Int)
  | removeFromRemainder (c : ClusterId) (ids : List Int)
  | setRemainder (c : ClusterId) (ids : List Int)

namespace Operation

variable {o : Operation}

/-- The changes of an assimilation, one after the other. -/
def takeOver (p c : ClusterId) (children : List ClusterId) (withRemainder : Bool) :
    ExceptT Fault (StateM Forest) Unit := do
  modifyThe Forest fun f => f.detach c
  modifyThe Forest fun f => f.addChildren p children
  if withRemainder then
    modifyThe Forest fun f => f.addToRemainder p (f.remainder c)
  modifyThe Forest fun f => f.setRemainder c []

/-- An operation as a program that changes the forest.  If it fails, the changes that it has
made by then remain. -/
def perform : Operation → ExceptT Fault (StateM Forest) Unit
  | .create parent => modifyThe Forest fun f => (f.spawn parent).1
  | .addChildren p cs => modifyThe Forest fun f => f.addChildren p cs
  | .detach c => modifyThe Forest fun f => f.detach c
  | .reparent c p => modifyThe Forest fun f => f.reparent c p
  | .assimilate p c withRemainder => do
      let f ← get
      if f.parent c = some p then takeOver p c (f.children c) withRemainder
      else throw .notChild
  | .addToRemainder c ids => modifyThe Forest fun f => f.addToRemainder c ids
  | .removeFromRemainder c ids => modifyThe Forest fun f => f.removeFromRemainder c ids
  | .setRemainder c ids => modifyThe Forest fun f => f.setRemainder c ids

/-- Whether an operation fails. -/
def result (o : Operation) (f : Forest) : Except Fault Unit :=
  (o.perform.run f).1

/-- The forest that an operation leaves. -/
def after (o : Operation) (f : Forest) : Forest :=
  (o.perform.run f).2

/-- The program of an assimilation leaves the forest that `assimilate` gives, if any. -/
theorem run_assimilate (f : Forest) (p c : ClusterId) (w : Bool) :
    (perform (.assimilate p c w)).run f = match f.assimilate p c w with
      | .ok g => (.ok (), g)
      | .error e => (.error e, f) := by
  have reads : (perform (.assimilate p c w)).run f =
      (if f.parent c = some p then takeOver p c (f.children c) w else throw .notChild).run f := rfl
  rw [reads, Forest.assimilate]
  split
  · cases w <;> rfl
  · rfl

theorem after_assimilate (f : Forest) (p c : ClusterId) (w : Bool) :
    after (.assimilate p c w) f = if f.parent c = some p then f.absorb p c w else f := by
  rw [after, run_assimilate, Forest.assimilate]
  by_cases child : f.parent c = some p
  · rw [if_pos child, if_pos child]
  · rw [if_neg child, if_neg child]

/-- Only an assimilation of a cluster that is not a child fails, and it changes nothing. -/
theorem failed_iff : (∃ e, o.result f = .error e) ↔
    ∃ p c w, o = .assimilate p c w ∧ f.parent c ≠ some p := by
  cases o with
  | assimilate p c w =>
      rw [result, run_assimilate, Forest.assimilate]
      by_cases child : f.parent c = some p
      · rw [if_pos child]
        refine iff_of_false nofun ?_
        rintro ⟨_, _, _, ⟨⟩, other⟩
        exact other child
      · rw [if_neg child]
        exact iff_of_true ⟨_, rfl⟩ ⟨p, c, w, rfl, child⟩
  | _ => exact iff_of_false nofun nofun

theorem after_of_failed {e : Fault} (failed : o.result f = .error e) : o.after f = f := by
  obtain ⟨p, c, w, rfl, other⟩ := failed_iff.mp ⟨e, failed⟩
  rw [after_assimilate, if_neg other]

/-! ## Links -/

/-- The clusters that an operation is about. -/
def clusters : Operation → List ClusterId
  | .create parent => parent.toList
  | .addChildren p cs => p :: cs
  | .detach c | .addToRemainder c _ | .removeFromRemainder c _ | .setRemainder c _ => [c]
  | .reparent c p | .assimilate p c _ => [c, p]

/-- Whether an operation is about clusters of a forest. -/
def Within (o : Operation) (f : Forest) : Prop :=
  ∀ c ∈ o.clusters, c < f.size

instance (o : Operation) (f : Forest) : Decidable (o.Within f) :=
  inferInstanceAs (Decidable (∀ c ∈ o.clusters, c < f.size))

/-- The parent of a cluster after an operation. -/
def parentAfter (o : Operation) (f : Forest) (d : ClusterId) : Option ClusterId :=
  match o with
  | .create parent => if d = f.size then parent else f.parent d
  | .addChildren p cs => if d ∈ cs then some p else f.parent d
  | .detach c => if d = c then none else f.parent d
  | .reparent c p => if d = c then some p else f.parent d
  | .assimilate p c _ =>
      if f.parent c ≠ some p then f.parent d
      else if f.parent d = some c then some p
      else if d = c then none
      else f.parent d
  | .addToRemainder .. | .removeFromRemainder .. | .setRemainder .. => f.parent d

theorem parent_after (hf : f.Agreeing) (within : o.Within f) (d : ClusterId) :
    (o.after f).parent d = o.parentAfter f d := by
  cases o with
  | create parent => exact parent_spawn f parent d
  | addChildren p cs =>
      exact parent_addChildren f p cs d fun c hc => within c (List.mem_cons_of_mem _ hc)
  | detach c => exact parent_detach f c d
  | reparent c p => exact parent_reparent f c d p (within c List.mem_cons_self)
  | assimilate p c w =>
      rw [after_assimilate, parentAfter, ite_not]
      split
      · exact hf.parent_absorb w d
      · rfl
  | addToRemainder c ids => exact parent_addToRemainder f c d ids
  | removeFromRemainder c ids => exact parent_removeFromRemainder f c d ids
  | setRemainder c ids => exact parent_setRemainder f c d ids

theorem agreeing_after (hf : f.Agreeing) (within : o.Within f) : (o.after f).Agreeing := by
  cases o with
  | create parent =>
      cases parent with
      | none => exact hf.spawn_none
      | some p => exact hf.spawn (within p List.mem_cons_self)
  | addChildren p cs =>
      exact hf.addChildren (within p List.mem_cons_self) fun c hc =>
        within c (List.mem_cons_of_mem _ hc)
  | detach c => exact hf.detach c
  | reparent c p =>
      exact hf.reparent (within c List.mem_cons_self)
        (within p (List.mem_cons_of_mem _ List.mem_cons_self))
  | assimilate p c w =>
      rw [after_assimilate]
      split
      · exact hf.absorb (within p (List.mem_cons_of_mem _ List.mem_cons_self)) w
      · exact hf
  | addToRemainder c ids => exact (SameLinks.addToRemainder f c ids).agreeing hf
  | removeFromRemainder c ids => exact (SameLinks.removeFromRemainder f c ids).agreeing hf
  | setRemainder c ids => exact (SameLinks.setRemainder f c ids).agreeing hf

/-! ## Cycles -/

/-- Who adopts whom. -/
def adoptions : Operation → List (ClusterId × ClusterId)
  | .addChildren p cs => cs.map fun c => (p, c)
  | .reparent c p => [(p, c)]
  | _ => []

/-- Whether some cluster is adopted by itself or by one below it. -/
def Closes (o : Operation) (f : Forest) : Prop :=
  ∃ p c, (p, c) ∈ o.adoptions ∧ ReflTransGen f.Up p c

theorem not_closes (none : o.adoptions = []) : ¬ o.Closes f := by
  rintro ⟨p, c, adopted, -⟩
  rw [none] at adopted
  cases adopted

/-- Where nobody is adopted and every parent was above its child before, no cycle comes about. -/
theorem acyclic_iff_of_above (acyclic : f.Acyclic) (none : o.adoptions = [])
    (above : ∀ c p, (o.after f).Up c p → TransGen f.Up c p) :
    (o.after f).Acyclic ↔ ¬ o.Closes f :=
  iff_of_true (acyclic.of_up above) (not_closes none)

/-- After an operation there is no cycle, if there was none, unless the operation closes one. -/
theorem acyclic_after_iff (hf : f.Agreeing) (within : o.Within f) (acyclic : f.Acyclic) :
    (o.after f).Acyclic ↔ ¬ o.Closes f := by
  have parent := parent_after hf within
  cases o with
  | create q =>
      cases q with
      | none =>
          refine acyclic_iff_of_above acyclic rfl fun c p up => .single ?_
          rw [Up, parent, parentAfter] at up
          split at up
          · cases up
          · exact up
      | some q =>
          have hq : q < f.size := within q List.mem_cons_self
          have adopted : ∀ d, ((create (some q)).after f).parent d =
              if d ∈ [f.size] then some q else f.parent d := fun d => by
            simp [parent, parentAfter]
          refine iff_of_true ((acyclic_adopted_iff adopted acyclic).mpr ?_) (not_closes rfl)
          intro c hc above
          rw [List.mem_singleton.mp hc] at above
          rcases reflTransGen_iff_eq_or_transGen.mp above with same | above
          · exact hq.ne same.symm
          · exact lt_irrefl _ (hf.lt_size_of_above above)
  | addChildren p cs =>
      rw [acyclic_adopted_iff parent acyclic]
      simp [Closes, adoptions]
  | detach c =>
      refine acyclic_iff_of_above acyclic rfl fun d q up => .single ?_
      rw [Up, parent, parentAfter] at up
      split at up
      · cases up
      · exact up
  | reparent c p =>
      have adopted : ∀ d, ((reparent c p).after f).parent d =
          if d ∈ [c] then some p else f.parent d := fun d => by
        simp [parent, parentAfter]
      rw [acyclic_adopted_iff adopted acyclic]
      simp [Closes, adoptions]
  | assimilate p c w =>
      refine acyclic_iff_of_above acyclic rfl fun d q up => ?_
      rw [Up, parent, parentAfter] at up
      split_ifs at up with other grandchild own
      · exact .single up
      · -- the children of the cluster go to its own parent
        rw [ne_eq, not_not] at other
        exact .tail (.single grandchild) (other.trans up)
      · exact .single up
  | addToRemainder | removeFromRemainder | setRemainder =>
      refine acyclic_iff_of_above acyclic rfl fun d q up => .single ?_
      rwa [Up, parent] at up

end Operation

/-! ## Runs -/

/-- What an operation does to the links of a forest in which they agree. -/
structure Kept (f : Forest) (o : Operation) : Prop where
  agreeing : (o.after f).Agreeing
  parent : ∀ d, (o.after f).parent d = o.parentAfter f d
  acyclic_iff : f.Acyclic → ((o.after f).Acyclic ↔ ¬ o.Closes f)
  failed_iff : (∃ e, o.result f = .error e) ↔
    ∃ p c w, o = .assimilate p c w ∧ f.parent c ≠ some p
  unchanged : ∀ e, o.result f = .error e → o.after f = f

theorem Agreeing.kept {o : Operation} (hf : f.Agreeing) (within : o.Within f) : Kept f o where
  agreeing := Operation.agreeing_after hf within
  parent := Operation.parent_after hf within
  acyclic_iff := Operation.acyclic_after_iff hf within
  failed_iff := Operation.failed_iff
  unchanged _ := Operation.after_of_failed

/-- A run of operations on clusters of the forest: the operations, each with the forest that it
is performed on, and the forest in the end. -/
inductive Run : Forest → List (Forest × Operation) → Forest → Prop
  | nil (f : Forest) : Run f [] f
  | cons {f g : Forest} {o : Operation} {trace : List (Forest × Operation)} :
      o.Within f → Run (o.after f) trace g → Run f ((f, o) :: trace) g

variable {trace : List (Forest × Operation)}

theorem Run.kept (run : Run f trace g) (hf : f.Agreeing) :
    g.Agreeing ∧ ∀ s ∈ trace, Kept s.1 s.2 := by
  induction run with
  | nil f => exact ⟨hf, List.forall_mem_nil _⟩
  | cons within _ ih =>
      have kept := hf.kept within
      obtain ⟨last, rest⟩ := ih kept.agreeing
      exact ⟨last, List.forall_mem_cons.mpr ⟨kept, rest⟩⟩

theorem Run.acyclic_iff (run : Run f trace g) (hf : f.Agreeing) (acyclic : f.Acyclic) :
    (∀ s ∈ trace, (s.2.after s.1).Acyclic) ↔ ∀ s ∈ trace, ¬ s.2.Closes s.1 := by
  induction run with
  | nil f => simp
  | @cons f g o trace within _ ih =>
      have kept := hf.kept within
      rw [List.forall_mem_cons, List.forall_mem_cons, kept.acyclic_iff acyclic]
      exact and_congr_right fun first => ih kept.agreeing ((kept.acyclic_iff acyclic).mpr first)

theorem Run.wellFormed (run : Run f trace g) (hf : f.WellFormed)
    (opens : ∀ s ∈ trace, ¬ s.2.Closes s.1) : g.WellFormed := by
  induction run with
  | nil f => exact hf
  | cons within _ ih =>
      obtain ⟨agreeing, acyclic⟩ := wellFormed_iff.mp hf
      obtain ⟨first, rest⟩ := List.forall_mem_cons.mp opens
      have kept := agreeing.kept within
      exact ih (wellFormed_iff.mpr ⟨kept.agreeing, (kept.acyclic_iff acyclic).mpr first⟩) rest

/-- In any run of operations on clusters whose links agree they agree throughout.  A run from a
forest without cycles makes none just if no cluster is adopted by itself or by one below it, and
an operation that fails changes nothing. -/
theorem run_kept (run : Run f trace g) (agreeing : f.Agreeing) :
    g.Agreeing ∧ (∀ s ∈ trace, Kept s.1 s.2) ∧
      (f.Acyclic → ((∀ s ∈ trace, (s.2.after s.1).Acyclic) ↔ ∀ s ∈ trace, ¬ s.2.Closes s.1)) ∧
      (f.WellFormed → (∀ s ∈ trace, ¬ s.2.Closes s.1) → g.WellFormed) :=
  ⟨(run.kept agreeing).1, (run.kept agreeing).2, run.acyclic_iff agreeing, run.wellFormed⟩

/-- Three clusters in a line. -/
def line : Forest :=
  ⟨#[⟨none, [1], []⟩, ⟨some 0, [2], []⟩, ⟨some 1, [], []⟩]⟩

/-- A run makes a line of clusters, where the assimilation of the last one by the first one fails.
Then the last one adopts the first. -/
theorem run_kept_line : ∃ trace g,
    trace.map Prod.snd = [.create (some 0), .create (some 1), .assimilate 0 2 true] ∧
      Run (empty.spawn none).1 trace line ∧ line.WellFormed ∧
        Run line [(line, .addChildren 2 [0])] g ∧ g.Agreeing ∧ ¬ g.Acyclic := by
  have run : Run (empty.spawn none).1 _ line :=
    .cons (o := .create (some 0)) (by decide) <| .cons (o := .create (some 1)) (by decide) <|
      .cons (o := .assimilate 0 2 true) (by decide) (.nil _)
  obtain ⟨-, -, -, wellFormed⟩ := run_kept run wellFormed_single.agreeing
  have free := wellFormed wellFormed_single fun s hs => Operation.not_closes (by
    revert s
    simp [Operation.adoptions])
  have knot := Run.cons (f := line) (o := .addChildren 2 [0]) (by decide) (.nil _)
  obtain ⟨agreeing, -, acyclic_iff, -⟩ := run_kept knot free.agreeing
  refine ⟨_, _, rfl, run, free, knot, agreeing, fun acyclic => ?_⟩
  have up : ReflTransGen line.Up 2 0 := .head (show _ = some 1 from rfl) (.single rfl)
  exact (acyclic_iff (wellFormed_iff.mp free).2).mp (List.forall_mem_singleton.mpr acyclic) _
    List.mem_cons_self ⟨2, 0, List.mem_singleton.mpr rfl, up⟩

end GraphClustering.Forest
