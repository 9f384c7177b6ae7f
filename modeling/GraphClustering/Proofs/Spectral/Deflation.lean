import GraphClustering.Proofs.Exact
import GraphClustering.Spectral.NormalizedAdjacency

/-!
# What the operator removes

With symmetric weights `A`, degrees `d`, `M = D^(-1/2) A D^(-1/2)` and `v ~ D^(1/2) 1` of norm
one, the operator takes from `M x` its part along `v`, whereas it is described as taking the part
of `x`.  The two parts differ by what the rows of zeros lose
(`ExactRoots.deflatedImage_sub`), since `M` keeps `v` but for these rows.  So the
description is exact just if there are none (`actsAsDescribed_iff`), and then the
operator maps `v` to zero (`annihilates`).  The entries of a vector and the weights of a
matrix are functions here; `apply_ofFn` says that the operator computes what is stated of them.
-/

namespace GraphClustering

variable {α : Type} [ExactScalar α] {n : Nat}

/-! ## Vectors as functions -/

namespace Vector

theorem broadcast_ofFn {β γ δ : Type} (f : β → γ → δ) (x : Fin n → β) (y : Fin n → γ) :
    broadcast f (List.ofFn x) (List.ofFn y) = .ok (List.ofFn fun i => f (x i) (y i)) := by
  rw [broadcast_of_length_eq f (by simp)]
  congr 1
  apply List.ext_getElem <;> simp

theorem dot_ofFn (x y : Fin n → α) :
    dot (List.ofFn x) (List.ofFn y) = ∑ i, x i * y i := by
  have products : List.zipWith (fun a b => a * b) (List.ofFn x) (List.ofFn y) =
      List.ofFn fun i => x i * y i := by
    apply List.ext_getElem <;> simp
  rw [dot, products, sum_eq, List.sum_ofFn]

theorem inner_ofFn (x y : Fin n → α) :
    inner (List.ofFn x) (List.ofFn y) = .ok (∑ i, x i * y i) := by
  rw [inner, if_pos (by simp), dot_ofFn]

end Vector

/-! ## Rows as functions -/

namespace Matrix

variable {m : Matrix α}

/-- The weight of a column of a row, the sum of all that is stored for it. -/
def rowWeight (row : List (Nat × α)) (j : Nat) : α :=
  ((row.filter fun e => e.1 = j).map Prod.snd).sum

/-- The weight at a place. -/
def weights (m : Matrix α) (n : Nat) (i j : Fin n) : α :=
  rowWeight (m.rows.getD i []) j

theorem rowWeight_cons (e : Nat × α) (row : List (Nat × α)) (j : Nat) :
    rowWeight (e :: row) j = (if e.1 = j then e.2 else 0) + rowWeight row j := by
  rw [rowWeight, List.filter_cons]
  split
  · rename_i here
    rw [if_pos (of_decide_eq_true here), List.map_cons, List.sum_cons]
    rfl
  · rename_i elsewhere
    rw [if_neg (by rwa [decide_eq_true_iff] at elsewhere), zero_add]
    rfl

/-- A sum over what a row stores is one over its columns. -/
theorem sum_row (f : Nat → α) {row : List (Nat × α)} (within : ∀ e ∈ row, e.1 < n) :
    (row.map fun e => e.2 * f e.1).sum = ∑ j : Fin n, rowWeight row j * f j := by
  induction row with
  | nil => simp [rowWeight]
  | cons e row ih =>
      obtain ⟨first, rest⟩ := List.forall_mem_cons.mp within
      simp only [List.map_cons, List.sum_cons, rowWeight_cons, add_mul, Finset.sum_add_distrib,
        ih rest]
      congr 1
      rw [Finset.sum_eq_single ⟨e.1, first⟩]
      · rw [if_pos rfl]
      · intro j _ other
        rw [if_neg fun same => other (Fin.ext same.symm), zero_mul]
      · exact fun out => absurd (Finset.mem_univ _) out

theorem rowDot_ofFn {row : List (Nat × α)} (within : ∀ e ∈ row, e.1 < n) (x : Fin n → α) :
    rowDot row (List.ofFn x).toArray = ∑ j : Fin n, rowWeight row j * x j := by
  have products : rowDot row (List.ofFn x).toArray =
      Vector.sum (row.map fun e => e.2 * (List.ofFn x).toArray.getD e.1 0) := by
    rw [rowDot, Vector.sum, List.foldl_map]
  rw [products, Vector.sum_eq, sum_row (fun j => (List.ofFn x).toArray.getD j 0) within]
  simp

theorem rowSum_eq {row : List (Nat × α)} (within : ∀ e ∈ row, e.1 < n) :
    rowSum row = ∑ j : Fin n, rowWeight row j := by
  have total : rowSum row = (row.map Prod.snd).sum := by
    cases row with
    | nil => rfl
    | cons e rest =>
        rw [rowSum, Vector.pairwiseSum_eq]
        split
        · rename_i none
          rw [List.isEmpty_iff.mp none, List.map_singleton, List.sum_singleton]
        · rw [List.map_cons, List.sum_cons]
  have ones := sum_row (fun _ => (1 : α)) within
  simp only [mul_one] at ones
  rw [total, ones]

/-- A square matrix of symmetric weights, none of them negative. -/
structure IsAdjacency (m : Matrix α) (n : Nat) : Prop where
  columns : m.columns = n
  rows : m.rows.size = n
  within : ∀ row ∈ m.rows, ∀ e ∈ row, e.1 < n
  symm : ∀ i j, m.weights n i j = m.weights n j i
  nonneg : ∀ i j, 0 ≤ m.weights n i j

namespace IsAdjacency

variable (h : m.IsAdjacency n)

include h

theorem within_row (i : Fin n) : ∀ e ∈ m.rows.getD i [], e.1 < n := by
  have inside : (i : Nat) < m.rows.size := h.rows ▸ i.isLt
  rw [Array.getD_eq_getD_getElem?, Array.getElem?_eq_getElem inside, Option.getD_some]
  exact h.within _ (Array.getElem_mem inside)

/-- What is found for each row. -/
theorem map_rows {β : Type} (f : List (Nat × α) → β) :
    (m.rows.map f).toList = List.ofFn fun i : Fin n => f (m.rows.getD i []) := by
  apply List.ext_getElem
  · simp [h.rows]
  · intro i hi hi'
    have inside : i < m.rows.size := by simpa using hi
    simp [inside]

theorem mulVec_ofFn (x : Fin n → α) : m.mulVec (List.ofFn x).toArray =
    .ok (List.ofFn fun i => ∑ j, m.weights n i j * x j).toArray := by
  rw [mulVec, if_pos (by simp [h.columns]), product]
  congr 1
  apply Array.toList_inj.mp
  rw [h.map_rows]
  congr 1
  funext i
  exact rowDot_ofFn (h.within_row i) x

end IsAdjacency

end Matrix

namespace NormalizedAdjacency

/-! ## Weights as a function of two places -/

variable {A : Fin n → Fin n → α}

/-- The sum of a row, with one in place of zero. -/
def degree (A : Fin n → Fin n → α) (i : Fin n) : α :=
  if ∑ j, A i j = 0 then 1 else ∑ j, A i j

/-- The square root of a degree. -/
def root (A : Fin n → Fin n → α) (i : Fin n) : α :=
  ExactScalar.root (degree A i)

/-- The norm of the square roots. -/
def rootNorm (A : Fin n → Fin n → α) : α :=
  ExactScalar.root (∑ i, degree A i)

/-- The trivial eigenvector, of norm one. -/
def direction (A : Fin n → Fin n → α) (i : Fin n) : α :=
  root A i / rootNorm A

/-- The weights divided by the square roots of both degrees. -/
def normalized (A : Fin n → Fin n → α) (i j : Fin n) : α :=
  1 / root A i * A i j * (1 / root A j)

/-- The product of the normalised weights with a vector. -/
def image (A : Fin n → Fin n → α) (x : Fin n → α) (i : Fin n) : α :=
  ∑ j, normalized A i j * x j

/-- The part of a vector along the trivial eigenvector. -/
def along (A : Fin n → Fin n → α) (x : Fin n → α) : α :=
  ∑ i, direction A i * x i

/-- The image of a vector without its part along the trivial eigenvector. -/
def deflatedImage (A : Fin n → Fin n → α) (x : Fin n → α) (i : Fin n) : α :=
  image A x i - direction A i * along A (image A x)

/-- The image of a vector less the part of the vector itself, as the operator is described. -/
def describedImage (A : Fin n → Fin n → α) (x : Fin n → α) (i : Fin n) : α :=
  image A x i - direction A i * along A x

/-- The square roots that are taken are exact. -/
structure ExactRoots (A : Fin n → Fin n → α) : Prop where
  root_pos : ∀ i, 0 < root A i
  root_sq : ∀ i, root A i * root A i = degree A i
  norm_pos : 0 < rootNorm A
  norm_sq : rootNorm A * rootNorm A = ∑ i, degree A i

theorem normalized_symm (symm : ∀ i j, A i j = A j i) (i j : Fin n) :
    normalized A i j = normalized A j i := by
  rw [normalized, normalized, symm i j]
  ring

theorem along_sub_mul (x y : Fin n → α) (c : α) :
    along A (fun i => x i - y i * c) = along A x - along A y * c := by
  simp only [along, mul_sub, Finset.sum_sub_distrib, Finset.sum_mul, mul_assoc]

/-- The part of an image is found from the parts of the columns. -/
theorem along_image (x : Fin n → α) :
    along A (image A x) = ∑ j, along A (fun i => normalized A i j) * x j := by
  simp only [along, image, Finset.mul_sum, Finset.sum_mul]
  rw [Finset.sum_comm]
  simp only [mul_assoc]

/-- Weights that are not negative add up to zero only if all of them are zero. -/
theorem sum_ne_zero_iff (nonneg : ∀ i j, 0 ≤ A i j) (i : Fin n) :
    ∑ j, A i j ≠ 0 ↔ ∃ j, A i j ≠ 0 := by
  rw [ne_eq, Finset.sum_eq_zero_iff_of_nonneg fun j _ => nonneg i j]
  simp

namespace ExactRoots

variable (h : ExactRoots A)

include h

theorem direction_pos (i : Fin n) : 0 < direction A i :=
  div_pos (h.root_pos i) h.norm_pos

/-- The trivial eigenvector has norm one. -/
theorem along_direction : along A (direction A) = 1 := by
  have square (i : Fin n) : direction A i * direction A i =
      degree A i / (rootNorm A * rootNorm A) := by
    rw [direction, div_mul_div_comm, h.root_sq]
  simp only [along, square]
  rw [← Finset.sum_div, ← h.norm_sq, div_self (mul_pos h.norm_pos h.norm_pos).ne']

/-- What is left has no part along the trivial eigenvector. -/
theorem along_deflatedImage (x : Fin n → α) : along A (deflatedImage A x) = 0 := by
  change along A (fun i => image A x i - direction A i * along A (image A x)) = 0
  rw [along_sub_mul, h.along_direction, one_mul, sub_self]

/-- The normalised weights keep the trivial eigenvector, but for rows of zeros. -/
theorem along_normalized (symm : ∀ i j, A i j = A j i) (j : Fin n) :
    along A (fun i => normalized A i j) = if ∑ i, A j i = 0 then 0 else direction A j := by
  have term (i : Fin n) :
      direction A i * normalized A i j = A j i / (rootNorm A * root A j) := by
    have := (h.root_pos i).ne'
    rw [direction, normalized, symm i j]
    field_simp
  simp only [along, term]
  rw [← Finset.sum_div]
  split
  · rename_i zero
    rw [zero, zero_div]
  · rename_i some
    have total : ∑ i, A j i = root A j * root A j := by rw [h.root_sq, degree, if_neg some]
    rw [total, direction, mul_comm (rootNorm A), mul_div_mul_left _ _ (h.root_pos j).ne']

/-- The image differs from what the description says by the part that rows of zeros lose. -/
theorem deflatedImage_sub (symm : ∀ i j, A i j = A j i) (x : Fin n → α) (i : Fin n) :
    deflatedImage A x i - describedImage A x i =
      direction A i * ∑ j, if ∑ k, A j k = 0 then direction A j * x j else 0 := by
  have lost : along A x - along A (image A x) =
      ∑ j, if ∑ k, A j k = 0 then direction A j * x j else 0 := by
    rw [along_image, along, ← Finset.sum_sub_distrib]
    apply Finset.sum_congr rfl
    intro j _
    rw [h.along_normalized symm]
    split
    · rw [zero_mul, sub_zero]
    · exact sub_self _
  rw [deflatedImage, describedImage, ← lost]
  ring

/-- The description is exact just if no row is zero. -/
theorem deflatedImage_eq_iff (symm : ∀ i j, A i j = A j i) (nonneg : ∀ i j, 0 ≤ A i j) :
    (∀ x, deflatedImage A x = describedImage A x) ↔ ∀ i, ∃ j, A i j ≠ 0 := by
  simp only [← sum_ne_zero_iff nonneg]
  constructor
  · intro same i zero
    -- the vector that is one at the place of the row and zero elsewhere
    have differ := h.deflatedImage_sub symm (Pi.single i 1) i
    rw [same, sub_self, Finset.sum_eq_single i, if_pos zero, Pi.single_eq_same, mul_one] at differ
    · exact (mul_pos (h.direction_pos i) (h.direction_pos i)).ne differ
    · intro j _ other
      rw [Pi.single_eq_of_ne other, mul_zero, ite_self]
    · exact fun out => absurd (Finset.mem_univ i) out
  · intro some x
    funext i
    rw [← sub_eq_zero, h.deflatedImage_sub symm]
    simp only [if_neg (some _), Finset.sum_const_zero, mul_zero]

/-- Without a row of zeros the trivial eigenvector is mapped to zero. -/
theorem deflatedImage_direction (symm : ∀ i j, A i j = A j i)
    (some : ∀ i, ∑ j, A i j ≠ 0) : deflatedImage A (direction A) = 0 := by
  have kept : image A (direction A) = direction A := by
    funext i
    have column : image A (direction A) i = along A (fun j => normalized A j i) := by
      apply Finset.sum_congr rfl
      intro j _
      rw [normalized_symm symm i j, mul_comm]
    rw [column, h.along_normalized symm, if_neg (some i)]
  funext i
  rw [deflatedImage, kept, h.along_direction, mul_one, sub_self, Pi.zero_apply]

end ExactRoots

/-! ## The operator of a matrix -/

section Operator

variable {m : Matrix α} (h : m.IsAdjacency n)

include h

theorem degrees_eq : degrees m = List.ofFn (degree (m.weights n)) := by
  rw [degrees, Matrix.rowSums, h.map_rows, List.map_ofFn]
  congr 1
  funext i
  simp only [Function.comp_apply, degree, Matrix.rowSum_eq (h.within_row i)]
  exact if_congr isZero_eq_true_iff rfl rfl

theorem ofMatrix_eq (exact : ExactRoots (m.weights n)) : ofMatrix m =
    ⟨m, List.ofFn fun i => 1 / root (m.weights n) i, List.ofFn (direction (m.weights n))⟩ := by
  have roots : (degrees m).map Scalar.sqrt = List.ofFn (root (m.weights n)) := by
    rw [degrees_eq h, List.map_ofFn]
    rfl
  have norm : Vector.norm (List.ofFn (root (m.weights n))) = rootNorm (m.weights n) := by
    rw [Vector.norm, Vector.dot_ofFn]
    simp only [exact.root_sq]
    rfl
  rw [ofMatrix, roots, norm, Vector.scale, List.map_ofFn, List.map_ofFn]
  rfl

/-- What the operator computes. -/
theorem apply_ofFn (exact : ExactRoots (m.weights n)) (x : Fin n → α) :
    (ofMatrix m).apply (List.ofFn x) = .ok (List.ofFn (deflatedImage (m.weights n) x)) := by
  have product (i : Fin n) : 1 / root (m.weights n) i *
      ∑ j, m.weights n i j * (1 / root (m.weights n) j * x j) = image (m.weights n) x i := by
    simp only [image, normalized, Finset.mul_sum, mul_assoc]
  rw [ofMatrix_eq h exact, apply, Vector.broadcast_ofFn]
  simp only [bind, Except.bind, h.mulVec_ofFn, Vector.broadcast_ofFn, product]
  rw [deflate, Vector.inner_ofFn]
  simp only [bind, Except.bind, List.map_ofFn, Function.comp_def, Vector.broadcast_ofFn]
  rfl

end Operator

/-- The operator of a matrix acts as it is described. -/
def ActsAsDescribed (m : Matrix α) (n : Nat) : Prop :=
  ∀ x : Fin n → α,
    (ofMatrix m).apply (List.ofFn x) = .ok (List.ofFn (describedImage (m.weights n) x))

/-- The operator of a matrix maps the trivial eigenvector to zero. -/
def Annihilates (m : Matrix α) (n : Nat) : Prop :=
  (ofMatrix m).apply (List.ofFn (direction (m.weights n))) = .ok (List.replicate n 0)

section Operator

variable {m : Matrix α} (h : m.IsAdjacency n) (exact : ExactRoots (m.weights n))

include h exact

theorem exists_apply_along (x : Fin n → α) : ∃ y, (ofMatrix m).apply (List.ofFn x) =
    .ok (List.ofFn y) ∧ along (m.weights n) y = 0 :=
  ⟨_, apply_ofFn h exact x, exact.along_deflatedImage x⟩

theorem actsAsDescribed_iff : ActsAsDescribed m n ↔ ∀ i, ∃ j, m.weights n i j ≠ 0 := by
  rw [← exact.deflatedImage_eq_iff h.symm h.nonneg, ActsAsDescribed]
  refine forall_congr' fun x => ?_
  rw [apply_ofFn h exact, Except.ok.injEq, List.ofFn_inj]

theorem annihilates (some : ∀ i, ∃ j, m.weights n i j ≠ 0) : Annihilates m n := by
  rw [Annihilates, apply_ofFn h exact, exact.deflatedImage_direction h.symm fun i =>
    (sum_ne_zero_iff h.nonneg i).mpr (some i)]
  exact congrArg Except.ok (List.ofFn_const n 0)

end Operator

end NormalizedAdjacency

end GraphClustering
