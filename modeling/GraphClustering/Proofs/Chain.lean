import GraphClustering.Fault

/-!
# Chains of computations that may fail

A chain has a result just if each of its steps has one, and it fails with the failure of
the first step that does.
-/

namespace GraphClustering

variable {ε β γ : Type} {x : Except ε β} {f : β → Except ε γ} {c : γ} {e : ε}

/-- A chain that succeeds has succeeded at its first step. -/
theorem exists_of_bind_eq_ok (h : x >>= f = .ok c) : ∃ b, x = .ok b ∧ f b = .ok c := by
  cases x with
  | error e => cases h
  | ok b => exact ⟨b, rfl, h⟩

theorem exists_of_map_eq_ok {f : β → γ} (h : x.map f = .ok c) : ∃ b, x = .ok b ∧ f b = c := by
  cases x with
  | error e => cases h
  | ok b => exact ⟨b, rfl, Except.ok.inj h⟩

theorem eq_ok_of_toOption {b : β} (h : x.toOption = some b) : x = .ok b := by
  cases x with
  | error e => cases h
  | ok b' => exact congrArg Except.ok (Option.some.inj h)

/-- A computation for each member of a list, none of which fails. -/
theorem mapM_eq_ok {f : β → Except ε γ} {g : β → γ} {xs : List β} (h : ∀ x ∈ xs, f x = .ok (g x)) :
    xs.mapM f = .ok (xs.map g) := by
  induction xs with
  | nil => rfl
  | cons x xs ih =>
      rw [List.mapM_cons, h x List.mem_cons_self, ih fun y hy => h y (List.mem_cons_of_mem _ hy)]
      rfl

theorem cases_of_bind_eq_error (h : x >>= f = .error e) :
    x = .error e ∨ ∃ b, x = .ok b ∧ f b = .error e := by
  cases x with
  | error e => cases h; exact .inl rfl
  | ok b => exact .inr ⟨b, rfl, h⟩

end GraphClustering
