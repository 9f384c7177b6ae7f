import Mathlib
import GraphClustering.Profile.Program

/-!
# Blocks that are profiled

Which blocks of a program are entered while profiling is enabled, and how they are nested, is
told by the program alone (`Step.trace`).  Each block of an operation has a report of its own:
its name and metadata, and the phases for that name that are left while it is open.  Where no
block lies within another one of its name, the reports of all blocks hold each phase that is
left in a block of its operation once (`Spans.tagged_perm_attached`).
-/

namespace GraphClustering.Profile

/-- Nested blocks that were entered while profiling was enabled, each with what is inside it and
with those that follow. -/
inductive Spans where
  | nil
  | operation (name : String) (metadata : Metadata) (inside rest : Spans)
  | phase (name : String) (operation : Option String) (metadata : Metadata) (inside rest : Spans)

namespace Spans

variable {o n : String} {os qs : List String} {s t : Spans}

protected def append : Spans → Spans → Spans
  | nil, t => t
  | operation n m inside rest, t => operation n m inside (rest.append t)
  | phase n o m inside rest, t => phase n o m inside (rest.append t)

/-- The names of the blocks of operations. -/
def names : Spans → List String
  | nil => []
  | operation n _ inside rest => n :: (inside.names ++ rest.names)
  | phase _ _ _ inside rest => inside.names ++ rest.names

/-- The phases for an operation, in the order in which they are left. -/
def phasesFor (o : String) : Spans → List Phase
  | nil => []
  | operation _ _ inside rest => inside.phasesFor o ++ rest.phasesFor o
  | phase n q m inside rest =>
      inside.phasesFor o ++ (if q = some o then [⟨n, 0, m⟩] else []) ++ rest.phasesFor o

/-- The report of a block of an operation. -/
def own (n : String) (m : Metadata) (inside : Spans) : Report :=
  ⟨n, 0, inside.phasesFor n, m⟩

/-- The reports of all blocks of operations, in the order in which the blocks are left. -/
def operations : Spans → List Report
  | nil => []
  | operation n m inside rest => inside.operations ++ own n m inside :: rest.operations
  | phase _ _ _ inside rest => inside.operations ++ rest.operations

/-- The reports that are kept: those of blocks that no other block of their name lies within. -/
def reports : Spans → List Report
  | nil => []
  | operation n m inside rest =>
      inside.reports ++ (if n ∈ inside.names then [] else [own n m inside]) ++ rest.reports
  | phase _ _ _ inside rest => inside.reports ++ rest.reports

/-- No block of an operation lies within another one of its name. -/
def Lone : Spans → Prop
  | nil => True
  | operation n _ inside rest => n ∉ inside.names ∧ inside.Lone ∧ rest.Lone
  | phase _ _ _ inside rest => inside.Lone ∧ rest.Lone

/-- The phases that are left while a block of their operation is open, with the names of these
operations; at first there are open blocks of the names `os`. -/
def attached : List String → Spans → List (String × Phase)
  | _, nil => []
  | os, operation n _ inside rest => attached (n :: os) inside ++ attached os rest
  | os, phase n q m inside rest =>
      attached os inside ++ ((q.filter (· ∈ os)).map fun o => (o, ⟨n, 0, m⟩)).toList ++
        attached os rest

/-- The phases of a report with its name. -/
def tagged (r : Report) : List (String × Phase) :=
  r.phases.map fun p => (r.operation, p)

/-! ## One after the other -/

@[simp] theorem names_append (s t : Spans) : (s.append t).names = s.names ++ t.names := by
  induction s with
  | nil => rfl
  | operation n m inside rest _ ih => simp [Spans.append, names, ih]
  | phase n q m inside rest _ ih => simp [Spans.append, names, ih]

@[simp] theorem phasesFor_append (o : String) (s t : Spans) :
    (s.append t).phasesFor o = s.phasesFor o ++ t.phasesFor o := by
  induction s with
  | nil => rfl
  | operation n m inside rest _ ih => simp [Spans.append, phasesFor, ih]
  | phase n q m inside rest _ ih => simp [Spans.append, phasesFor, ih]

@[simp] theorem reports_append (s t : Spans) : (s.append t).reports = s.reports ++ t.reports := by
  induction s with
  | nil => rfl
  | operation n m inside rest _ ih => simp [Spans.append, reports, ih]
  | phase n q m inside rest _ ih => simp [Spans.append, reports, ih]

/-! ## Blocks that are alone -/

theorem length_reports_le (s : Spans) : s.reports.length ≤ s.operations.length := by
  induction s with
  | nil => exact Nat.le_refl 0
  | operation n m inside rest ihInside ihRest =>
      simp only [reports, operations, List.length_append, List.length_cons]
      split <;> simp only [List.length_nil, List.length_singleton] <;> omega
  | phase n q m inside rest ihInside ihRest =>
      simp only [reports, operations, List.length_append]
      omega

theorem lone_of_length_le (all : s.operations.length ≤ s.reports.length) : s.Lone := by
  induction s with
  | nil => trivial
  | operation n m inside rest ihInside ihRest =>
      have := inside.length_reports_le
      have := rest.length_reports_le
      simp only [reports, operations, List.length_append, List.length_cons] at all
      by_cases again : n ∈ inside.names
      · rw [if_pos again, List.length_nil] at all
        omega
      · rw [if_neg again, List.length_singleton] at all
        exact ⟨again, ihInside (by omega), ihRest (by omega)⟩
  | phase n q m inside rest ihInside ihRest =>
      have := inside.length_reports_le
      have := rest.length_reports_le
      simp only [reports, operations, List.length_append] at all
      exact ⟨ihInside (by omega), ihRest (by omega)⟩

/-- All reports are kept just if no block lies within another one of its name. -/
theorem reports_eq_operations_iff : s.reports = s.operations ↔ s.Lone := by
  refine ⟨fun same => lone_of_length_le (by rw [same]), fun alone => ?_⟩
  induction s with
  | nil => rfl
  | operation n m inside rest ihInside ihRest =>
      obtain ⟨new, hi, hr⟩ := alone
      rw [reports, operations, if_neg new, ihInside hi, ihRest hr, List.append_assoc]
      rfl
  | phase n q m inside rest ihInside ihRest =>
      rw [reports, operations, ihInside alone.1, ihRest alone.2]

/-- Only which names are open matters. -/
theorem attached_congr (same : ∀ o, o ∈ os ↔ o ∈ qs) : s.attached os = s.attached qs := by
  induction s generalizing os qs with
  | nil => rfl
  | operation n m inside rest ihInside ihRest =>
      rw [attached, attached, ihRest same, ihInside]
      intro o
      rw [List.mem_cons, List.mem_cons, same]
  | phase n q m inside rest ihInside ihRest =>
      simp only [attached, ihInside same, ihRest same, same]

/-- An open block takes the phases of its name beside those that the blocks inside take. -/
theorem attached_cons_perm (absent : n ∉ s.names) (new : n ∉ os) :
    (s.attached (n :: os)).Perm (s.attached os ++ (s.phasesFor n).map fun p => (n, p)) := by
  rw [← Multiset.coe_eq_coe, ← Multiset.coe_add]
  induction s generalizing os with
  | nil => rfl
  | operation n' m inside rest ihInside ihRest =>
      obtain ⟨ne, hi, hr⟩ : n ≠ n' ∧ n ∉ inside.names ∧ n ∉ rest.names := by
        simpa [names] using absent
      have swap : inside.attached (n' :: n :: os) = inside.attached (n :: n' :: os) :=
        attached_congr fun o => by simp only [List.mem_cons]; exact or_left_comm
      rw [attached, attached, phasesFor, swap, List.map_append]
      simp only [← Multiset.coe_add]
      rw [ihInside hi (List.not_mem_cons_of_ne_of_not_mem ne new), ihRest hr new]
      abel
  | phase n' q m inside rest ihInside ihRest =>
      obtain ⟨hi, hr⟩ : n ∉ inside.names ∧ n ∉ rest.names := by simpa [names] using absent
      -- The phase itself goes to the open block just if it is for that operation.
      have this : ((q.filter (· ∈ n :: os)).map fun o => (o, (⟨n', 0, m⟩ : Phase))).toList =
          ((q.filter (· ∈ os)).map fun o => (o, (⟨n', 0, m⟩ : Phase))).toList ++
            (if q = some n then [⟨n', 0, m⟩] else []).map fun p => (n, p) := by
        cases q with
        | none => rfl
        | some o =>
            by_cases same : o = n
            · subst same
              simp [Option.filter, new]
            · simp [Option.filter, same]
      rw [attached, attached, phasesFor, this]
      simp only [List.map_append, ← Multiset.coe_add]
      rw [ihInside hi new, ihRest hr new]
      abel

/-- The reports of blocks that are alone hold each phase that is left in a block of its operation,
and each once. -/
theorem tagged_perm_attached (alone : s.Lone) :
    (s.reports.flatMap tagged).Perm (s.attached []) := by
  rw [reports_eq_operations_iff.mpr alone, ← Multiset.coe_eq_coe]
  induction s with
  | nil => rfl
  | operation n m inside rest ihInside ihRest =>
      obtain ⟨absent, hi, hr⟩ := alone
      have taken := Multiset.coe_eq_coe.mpr (attached_cons_perm absent List.not_mem_nil)
      rw [operations, attached, List.flatMap_append, List.flatMap_cons]
      simp only [← Multiset.coe_add] at taken ⊢
      rw [taken, ihInside hi, ihRest hr, add_assoc]
      rfl
  | phase n q m inside rest ihInside ihRest =>
      rw [operations, attached, List.flatMap_append]
      simp only [← Multiset.coe_add, ihInside alone.1, ihRest alone.2]
      cases q <;> simp [Option.filter]

end Spans

/-! ## Programs -/

/-- What running steps brings about, as far as the steps tell: whether profiling is enabled
afterwards, whether no failure was left, and the blocks. -/
structure Trace where
  enabled : Bool
  completed : Bool
  spans : Spans

namespace Step

variable {ε α : Type}

mutual

/-- A program of nested blocks: reports are only made by blocks and never forgotten. -/
def BlocksOnly : Step ε α → Prop
  | .work _ | .enable | .disable | .isEnabled => True
  | .start _ _ | .finish _ | .record _ _ | .clear => False
  | .attempt body | .operation _ _ body | .phase _ _ _ body => AllBlocksOnly body

def AllBlocksOnly : List (Step ε α) → Prop
  | [] => True
  | s :: rest => BlocksOnly s ∧ AllBlocksOnly rest

end

mutual

/-- The blocks that a step enters while profiling is enabled, if it is enabled at first or not.
A phase for the empty name is for no operation. -/
def trace (enabled : Bool) : Step ε α → Trace
  | .work outcome => ⟨enabled, outcome.isOk, .nil⟩
  | .enable => ⟨true, true, .nil⟩
  | .disable => ⟨false, true, .nil⟩
  | .isEnabled | .start _ _ | .finish _ | .record _ _ | .clear => ⟨enabled, true, .nil⟩
  | .attempt body => { traceAll enabled body with completed := true }
  | .operation n m body =>
      let t := traceAll enabled body
      if enabled then { t with spans := .operation n m t.spans .nil } else t
  | .phase n o m body =>
      let t := traceAll enabled body
      if enabled then { t with spans := .phase n (o.filter fun o => !o.isEmpty) m t.spans .nil }
      else t

def traceAll (enabled : Bool) : List (Step ε α) → Trace
  | [] => ⟨enabled, true, .nil⟩
  | s :: rest =>
      let t := trace enabled s
      if t.completed then
        let u := traceAll t.enabled rest
        { u with spans := t.spans.append u.spans }
      else t

end

end Step

end GraphClustering.Profile
