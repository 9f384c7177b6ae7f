import GraphClustering.Proofs.Rational
import GraphClustering.Proofs.Spectral.Blocks
import GraphClustering.Spectral.Multiplier

/-!
# A device that fails

The first product that a device does not answer is computed without it, and so are all the later
ones (`Multiplier.calls_device`).  So all products are right, whatever fails, unless the number of
workers is negative and the matrix has several blocks: then the calls are refused from that
product on, and so is the choice of a multiplier without a device (`Multiplier.failover`).
-/

namespace GraphClustering

namespace Multiplier

open RowBlocks

variable {α : Type} {answers : Answers α} {asked n : Nat} {m : Matrix α} {workers : Option Int}
  {processors : Option Nat} {x : Array α} {xs : List (Array α)}

/-! ## Devices -/

/-- The device answers the first `n` of the products and not the next one, if there is one. -/
structure FailsAt (answers : Answers α) (asked : Nat) (m : Matrix α) (xs : List (Array α))
    (n : Nat) : Prop where
  le : n ≤ xs.length
  answered : ∀ i < n, ∀ x, xs[i]? = some x → ∃ y, answers (asked + i) m x = some y
  failed : ∀ x, xs[n]? = some x → answers (asked + n) m x = none

namespace FailsAt

theorem zero (h : answers asked m x = none) : FailsAt answers asked m (x :: xs) 0 where
  le := Nat.zero_le _
  answered := nofun
  failed := by
    rintro _ ⟨⟩
    exact h

theorem succ {y : Array α} (h : answers asked m x = some y)
    (rest : FailsAt answers (asked + 1) m xs n) : FailsAt answers asked m (x :: xs) (n + 1) where
  le := Nat.succ_le_succ rest.le
  answered := by
    rintro (_ | i) hi z hz
    · cases hz
      exact ⟨y, h⟩
    · rw [← Nat.succ_add_eq_add_succ]
      exact rest.answered i (Nat.lt_of_succ_lt_succ hi) z hz
  failed := by
    intro z hz
    rw [← Nat.succ_add_eq_add_succ]
    exact rest.failed z hz

/-- There is only one first failure. -/
theorem unique {n' : Nat} (h : FailsAt answers asked m xs n) (h' : FailsAt answers asked m xs n') :
    n = n' := by
  by_contra apart
  wlog earlier : n < n' generalizing n n'
  · exact this h' h (Ne.symm apart) (by omega)
  · obtain ⟨x, hx⟩ : ∃ x, xs[n]? = some x :=
      ⟨_, List.getElem?_eq_getElem (earlier.trans_le h'.le)⟩
    obtain ⟨y, answered⟩ := h'.answered n earlier x hx
    cases (h.failed x hx).symm.trans answered

end FailsAt

variable [Scalar α]

/-- A device whose answers are products of the matrix, if it answers. -/
def Exact (answers : Answers α) (m : Matrix α) : Prop :=
  ∀ k x y, answers k m x = some y → m.mulVec x = .ok y

theorem exact_failing (fails : Nat → Bool) (m : Matrix α) : Exact (failing fails) m := by
  intro k x y answered
  rw [failing] at answered
  split at answered
  · cases answered
  · cases product : m.mulVec x with
    | error e =>
        rw [product] at answered
        cases answered
    | ok z =>
        rw [product] at answered
        cases answered
        rfl

/-! ## Calls -/

/-- Blocks compute each product on their own. -/
theorem calls_processor (b : RowBlocks α) (xs : List (Array α)) :
    calls answers asked (.processor b) xs =
      xs.map fun x => ⟨b.mulVec x, .processor b, asked⟩ := by
  induction xs with
  | nil => rfl
  | cons x xs ih => exact congrArg (⟨b.mulVec x, .processor b, asked⟩ :: ·) ih

theorem apply_of_some {y : Array α} (h : answers asked m x = some y) :
    apply answers asked (.device m workers processors) x =
      ⟨.ok y, .device m workers processors, asked + 1⟩ := by
  rw [apply, h]

theorem apply_of_none (h : answers asked m x = none) :
    apply answers asked (.device m workers processors) x =
      fallBack m workers processors x (asked + 1) := by
  rw [apply, h]

theorem asked_fallBack : (fallBack m workers processors x asked).asked = asked := by
  rw [fallBack]
  split <;> rfl

/-- Once a product has failed, none of the later ones is asked of the device. -/
theorem calls_fallBack (x : Array α) (xs : List (Array α)) :
    calls answers asked (fallBack m workers processors x asked).next xs =
      xs.map fun z => fallBack m workers processors z asked := by
  cases found : ofMatrix m workers defaultRows processors with
  | ok b =>
      have instead (z : Array α) :
          fallBack m workers processors z asked = ⟨b.mulVec z, .processor b, asked⟩ := by
        rw [fallBack, found]
      simp only [instead, calls_processor]
  | error e =>
      have instead (z : Array α) :
          fallBack m workers processors z asked =
            ⟨.error e, .lost m workers processors, asked⟩ := by
        rw [fallBack, found]
      simp only [instead]
      induction xs with
      | nil => rfl
      | cons z xs ih => rw [calls, apply, instead, ih, List.map_cons]

/-- The device answers up to its first failure, and from that product on it is not asked. -/
theorem calls_device (exact : Exact answers m) (fits : ∀ x ∈ xs, x.size = m.columns)
    (workers : Option Int) (processors : Option Nat) (asked : Nat) :
    ∃ n, FailsAt answers asked m xs n ∧ ∀ i x, xs[i]? = some x →
      (calls answers asked (.device m workers processors) xs)[i]? = some
        (if i < n then ⟨.ok (m.product x), .device m workers processors, asked + (i + 1)⟩
          else fallBack m workers processors x (asked + (n + 1))) := by
  -- along the vectors: the device answers the first of them, or it is done with it
  induction xs generalizing asked with
  | nil => exact ⟨0, ⟨le_rfl, nofun, nofun⟩, nofun⟩
  | cons x xs ih =>
      cases answer : answers asked m x with
      | none =>
          have instead : calls answers asked (.device m workers processors) (x :: xs) =
              (x :: xs).map fun z => fallBack m workers processors z (asked + 1) := by
            rw [calls, apply_of_none answer, asked_fallBack, calls_fallBack, List.map_cons]
          refine ⟨0, .zero answer, fun i z hi => ?_⟩
          rw [instead, List.getElem?_map, hi]
          rfl
      | some y =>
          obtain ⟨size, fits⟩ := List.forall_mem_cons.mp fits
          have right := exact asked x y answer
          rw [Matrix.mulVec_of_size size] at right
          obtain ⟨n, fails, rest⟩ := ih fits (asked + 1)
          refine ⟨n + 1, fails.succ answer, fun i z hi => ?_⟩
          rw [calls, apply_of_some answer, ← right]
          cases i with
          | zero =>
              cases hi
              simp
          | succ i =>
              rw [List.getElem?_cons_succ, rest i z hi]
              simp only [Nat.add_lt_add_iff_right, Nat.add_assoc, Nat.add_comm 1]

/-! ## Whatever fails -/

theorem fallBack_of_staffed (h : Staffed m.order workers) (processors : Option Nat) :
    ∃ b, ∀ x asked,
      fallBack m workers processors x asked = ⟨m.mulVec x, .processor b, asked⟩ := by
  obtain ⟨b, found⟩ := ofMatrix_of_staffed h processors
  refine ⟨b, fun x asked => ?_⟩
  rw [fallBack, found, ← mulVec_of_ofMatrix (by decide) found]

theorem fallBack_of_not_staffed (h : ¬ Staffed m.order workers) (x : Array α) (asked : Nat) :
    fallBack m workers processors x asked =
      ⟨.error .negativeWorkers, .lost m workers processors, asked⟩ := by
  rw [fallBack, ofMatrix_of_not_staffed h]

/-- Without the device the products are the same, if there are workers for the rows. -/
theorem onProcessor_of_staffed (h : Staffed m.order workers) (processors : Option Nat)
    (fits : ∀ x ∈ xs, x.size = m.columns) :
    ∃ b, onProcessor m workers processors = .ok (.processor b) ∧ ∀ answers asked,
      calls answers asked (.processor b) xs =
        xs.map fun x => ⟨.ok (m.product x), .processor b, asked⟩ := by
  obtain ⟨b, found⟩ := ofMatrix_of_staffed h processors
  refine ⟨b, by rw [onProcessor, found]; rfl, fun answers asked => ?_⟩
  rw [calls_processor]
  refine List.map_congr_left fun x hx => ?_
  rw [mulVec_of_ofMatrix (by decide) found, Matrix.mulVec_of_size (fits x hx)]

omit [Scalar α] in
theorem onProcessor_of_not_staffed (h : ¬ Staffed m.order workers) :
    onProcessor m workers processors = .error .negativeWorkers := by
  rw [onProcessor, ofMatrix_of_not_staffed h]
  rfl

/-- A usable device that takes the matrix. -/
def Takes (c : Capability) (device : Option Device) : Prop :=
  c.usable ∧ ∃ d, device = some d ∧ d.uploadFails = false

omit [Scalar α] in
theorem choose_of_takes {c : Capability} {device : Option Device} (h : Takes c device)
    (m : Matrix α) (workers : Option Int) (processors : Option Nat) :
    choose c device m workers processors = .ok (.device m workers processors) := by
  obtain ⟨usable, d, rfl, uploads⟩ := h
  simp only [choose, usable, uploads]
  rfl

omit [Scalar α] in
theorem choose_of_not_takes {c : Capability} {device : Option Device} (h : ¬ Takes c device)
    (m : Matrix α) (workers : Option Int) (processors : Option Nat) :
    choose c device m workers processors = onProcessor m workers processors := by
  unfold choose
  split
  · rename_i d usable
    split
    · rfl
    · rename_i uploads
      exact absurd ⟨usable, d, rfl, Bool.eq_false_iff.mpr uploads⟩ h
  · rfl

/-- With a device that answers by the products of the matrix or not at all, every call returns
the product with its own vector: on the device up to its first failure, without it from that
product on, and the device is not asked again.  A matrix that no device takes is multiplied
without one from the start.  Only if the number of workers is negative and there are several
blocks, the matrix is refused as soon as it is without a device. -/
theorem failover (exact : Exact answers m) (fits : ∀ x ∈ xs, x.size = m.columns)
    (workers : Option Int) (processors : Option Nat) (asked : Nat) :
    (∃ n, FailsAt answers asked m xs n ∧ ∀ i x, xs[i]? = some x →
      ∃ c, (calls answers asked (.device m workers processors) xs)[i]? = some c ∧
        c.asked = asked + (min i n + 1) ∧
        (i < n → c.product = .ok (m.product x) ∧ c.next.backend = "gpu") ∧
        (n ≤ i → Staffed m.order workers →
          c.product = .ok (m.product x) ∧ c.next.backend = "cpu") ∧
        (n ≤ i → ¬ Staffed m.order workers →
          c.product = .error .negativeWorkers ∧ c.next.backend = "gpu")) ∧
    ∀ capability device,
      (Takes capability device →
        choose capability device m workers processors = .ok (.device m workers processors)) ∧
      (¬ Takes capability device → Staffed m.order workers →
        ∃ b, choose capability device m workers processors = .ok (.processor b) ∧
          ∀ answers asked, calls answers asked (.processor b) xs =
            xs.map fun x => ⟨.ok (m.product x), .processor b, asked⟩) ∧
      (¬ Takes capability device → ¬ Staffed m.order workers →
        choose capability device m workers processors = .error .negativeWorkers) := by
  constructor
  · obtain ⟨n, fails, all⟩ := calls_device exact fits workers processors asked
    refine ⟨n, fails, fun i x hi => ⟨_, all i x hi, ?_⟩⟩
    rcases Nat.lt_or_ge i n with before | after
    · rw [if_pos before, Nat.min_eq_left before.le]
      exact ⟨rfl, fun _ => ⟨rfl, rfl⟩, fun after => absurd after before.not_ge,
        fun after => absurd after before.not_ge⟩
    · rw [if_neg after.not_gt, Nat.min_eq_right after]
      refine ⟨asked_fallBack, fun before => absurd before after.not_gt, fun _ staffed => ?_,
        fun _ few => ?_⟩
      · obtain ⟨b, instead⟩ := fallBack_of_staffed staffed processors
        rw [instead, Matrix.mulVec_of_size (fits x (List.mem_of_getElem? hi))]
        exact ⟨rfl, rfl⟩
      · rw [fallBack_of_not_staffed few]
        exact ⟨rfl, rfl⟩
  · intro capability device
    refine ⟨fun takes => choose_of_takes takes m workers processors, fun refused => ?_,
      fun refused => ?_⟩
    · rw [choose_of_not_takes refused]
      exact fun staffed => onProcessor_of_staffed staffed processors fits
    · rw [choose_of_not_takes refused]
      exact onProcessor_of_not_staffed

/-- A matrix with entries on and above the diagonal. -/
def upper : Matrix ℚ := ⟨2, #[[(0, 1), (1, 2)], [(1, 3)]]⟩

/-- The second of three products fails on the device; without a device all are computed. -/
theorem failover_second :
    (∃ c, (calls (failing (· == 2)) 1 (.device upper none (some 8))
        [#[1, 0], #[0, 1], #[1, 1]])[1]? = some c ∧
        c.product = .ok #[2, 3] ∧ c.next.backend = "cpu" ∧ c.asked = 3) ∧
      ∃ b, choose .disabled none upper none (some 8) = .ok (.processor b) ∧
        calls (failing (· == 2)) 1 (.processor b) [#[1, 0], #[0, 1], #[1, 1]] =
          [#[1, 0], #[0, 1], #[1, 1]].map fun x => ⟨.ok (upper.product x), .processor b, 1⟩ := by
  have fits : ∀ x ∈ ([#[1, 0], #[0, 1], #[1, 1]] : List (Array ℚ)), x.size = upper.columns := by
    decide
  have staffed : Staffed upper.order none := .inl (by decide)
  obtain ⟨⟨n, fails, all⟩, chosen⟩ := failover (exact_failing (· == 2) upper) fits none (some 8) 1
  constructor
  · obtain rfl : n = 1 := fails.unique (.succ rfl (.zero rfl))
    obtain ⟨c, hc, asked, -, instead, -⟩ := all 1 #[0, 1] rfl
    obtain ⟨product, backend⟩ := instead le_rfl staffed
    have value : upper.product #[0, 1] = #[2, 3] := by decide +kernel
    exact ⟨c, hc, value ▸ product, backend, asked⟩
  · have refused : ¬ Takes .disabled none := by
      rintro ⟨⟨⟩, -⟩
    obtain ⟨b, found, all⟩ := (chosen .disabled none).2.1 refused staffed
    exact ⟨b, found, all _ 1⟩

/-- A matrix without entries. -/
def hollow (n : Nat) : Matrix ℚ := ⟨n, Array.replicate n []⟩

/-- With a negative number of workers two blocks cannot be multiplied without a device, so there
is nothing to fall back on. -/
theorem fallBack_understaffed :
    choose .disabled none (hollow 16385) (some (-1)) (some 8) = .error .negativeWorkers ∧
      Exact (failing fun _ => true) (hollow 16385) ∧
      (Array.replicate 16385 (0 : ℚ)).size = (hollow 16385).columns ∧
      (calls (failing fun _ => true) 1 (.device (hollow 16385) (some (-1)) (some 8))
        [Array.replicate 16385 0]).map Call.product = [.error .negativeWorkers] := by
  have few : ¬ Staffed (hollow 16385).order (some (-1)) := by
    rw [Staffed, Matrix.order, hollow, Array.size_replicate]
    decide
  refine ⟨onProcessor_of_not_staffed few, exact_failing _ _, Array.size_replicate, ?_⟩
  rw [calls, apply_of_none rfl, fallBack_of_not_staffed few]
  rfl

end Multiplier

end GraphClustering
