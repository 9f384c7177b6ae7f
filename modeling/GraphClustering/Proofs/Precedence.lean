import GraphClustering.Proofs.Chain
import GraphClustering.Proofs.Settings
import GraphClustering.Settings.FromEnvironment

/-!
# Given values beside the environment

Every variable is read before a value that is given takes the place of what it says, and the
first that cannot be read is reported (`fromEnvironment_eq`).  Of two environments that differ
in the variable of a given setting only, both lead to the same outcome unless one of them holds
a text there that cannot be read (`fromEnvironment_eq_iff`).
-/

namespace GraphClustering

namespace Setting

/-- The settings that are read before another one. -/
def earlier (f : Setting) : List Setting :=
  all.takeWhile fun g => g ≠ f

theorem notMem_earlier (f : Setting) : f ∉ f.earlier := fun h => by
  simpa using List.mem_takeWhile_imp h

theorem exists_all_eq (f : Setting) : ∃ later, all = f.earlier ++ f :: later ∧ f ∉ later := by
  cases f <;> exact ⟨_, rfl, by decide⟩

end Setting

namespace Settings

variable {env env' : Environment} {f g : Setting} {d d' : Draft} {e : SettingsFault}
variable {values : List (String × Offer)} {raw : String} {fs : List Setting}

theorem variableName_injective : Function.Injective variableName := fun f g h =>
  List.inj_on_of_nodup_map (by decide : (Setting.all.map variableName).Nodup)
    (Setting.mem_all f) (Setting.mem_all g) h

/-! ## What the environment says -/

/-- The text of a variable that is set but cannot be read. -/
def unreadable? (env : Environment) (f : Setting) : Option String :=
  (env.filled? (variableName f)).filter fun raw => (scan f raw).isNone

/-- What is said about a variable that cannot be read. -/
def faultOf (env : Environment) (f : Setting) : Option SettingsFault :=
  (unreadable? env f).map (.unreadable (variableName f) (kindText f))

/-- The value of a variable that can be read, or else the default. -/
def valueOf (env : Environment) (f : Setting) : Offer :=
  (((env.filled? (variableName f)).bind (scan f)).map .number).getD (defaults f)

theorem fromVariable_eq (env : Environment) (f : Setting) : fromVariable env f =
    match faultOf env f with
    | some e => .error e
    | none => .ok (valueOf env f) := by
  rw [fromVariable, faultOf, unreadable?, valueOf]
  cases env.filled? (variableName f) with
  | none => rfl
  | some raw =>
      rw [Option.filter_some, Option.bind_some]
      dsimp only
      cases scan f raw <;> rfl

/-- The values of variables, the others at their defaults. -/
def readDraft (env : Environment) (fs : List Setting) : Draft :=
  fs.foldr (fun f d => d.set f (valueOf env f)) defaults

/-- The first variable that cannot be read decides. -/
theorem environmentDraft_eq (env : Environment) (fs : List Setting) : environmentDraft env fs =
    match fs.findSome? (faultOf env) with
    | some e => .error e
    | none => .ok (readDraft env fs) := by
  induction fs with
  | nil => rfl
  | cons f fs ih =>
      rw [environmentDraft, fromVariable_eq, List.findSome?_cons, ih]
      cases faultOf env f with
      | some e => rfl
      | none => cases fs.findSome? (faultOf env) <;> rfl

/-- What is left to do with the values of the environment. -/
def complete (d : Draft) (values : List (String × Offer)) (allowDevice : Bool) :
    Except SettingsFault Settings := do
  let d ← d.override (values.filter fun v => isSomething v.2)
  (ofDraft d allowDevice).mapError asInvalid

theorem fromEnvironment_eq (env : Environment) (values : List (String × Offer))
    (allowDevice : Bool) : fromEnvironment env values allowDevice =
      match Setting.all.findSome? (faultOf env) with
      | some e => .error e
      | none => complete (readDraft env Setting.all) values allowDevice := by
  rw [fromEnvironment, environmentDraft_eq]
  cases Setting.all.findSome? (faultOf env) <;> rfl

/-! ## Faults of values -/

theorem failure_of_checkOne (h : checkOne d f = .error e) :
    (∃ x, e = .outOfRange f x) ∨ e = .notNumeric f := by
  rw [checkOne.eq_def] at h
  split at h
  · rename_i x _
    split at h
    · cases h
      exact .inl ⟨x, rfl⟩
    · cases h
  · cases h
  · cases h
  · cases h
    exact .inr rfl

theorem failure_of_ofDraft {allowDevice : Bool} (h : ofDraft d allowDevice = .error e) :
    ∃ f, (∃ x, e = .outOfRange f x) ∨ e = .notNumeric f := by
  have checks : ∀ fs : List Setting, fs.forM (checkOne d) = .error e →
      ∃ f, (∃ x, e = .outOfRange f x) ∨ e = .notNumeric f := by
    intro fs h
    induction fs with
    | nil => cases h
    | cons f fs ih =>
        rcases cases_of_bind_eq_error h with h | ⟨-, -, h⟩
        · exact ⟨f, failure_of_checkOne h⟩
        · exact ih h
  rcases cases_of_bind_eq_error h with h | ⟨-, -, h⟩
  · exact checks _ h
  · cases h

theorem failure_of_override (h : d.override values = .error e) : ∃ name, e = .unknown name := by
  induction values generalizing d with
  | nil => cases h
  | cons v values ih =>
      rw [Draft.override] at h
      split at h
      · exact ih h
      · split at h
        · exact ih h
        · cases h
          exact ⟨v.1, rfl⟩

/-- Values put together never fail as a variable that cannot be read does. -/
theorem complete_ne_unreadable {allowDevice : Bool} {name kind : String} :
    complete d values allowDevice ≠ .error (.unreadable name kind raw) := by
  intro h
  rcases cases_of_bind_eq_error h with h | ⟨d', -, h⟩
  · obtain ⟨_, h⟩ := failure_of_override h
    cases h
  · cases checked : ofDraft d' allowDevice with
    | ok s => rw [checked] at h; cases h
    | error e =>
        rw [checked] at h
        obtain ⟨f, ⟨x, rfl⟩ | rfl⟩ := failure_of_ofDraft checked
        · cases h
        · cases h

/-! ## Given values -/

/-- Drafts that differ in the value of one setting at most. -/
def Draft.AgreeBut (f : Setting) (d d' : Draft) : Prop :=
  ∀ g, g ≠ f → d g = d' g

namespace Draft.AgreeBut

theorem set (h : Draft.AgreeBut f d d') (g : Setting) (v : Offer) :
    Draft.AgreeBut f (d.set g v) (d'.set g v) := by
  intro k hk
  rw [Draft.set, Draft.set, h k hk]

theorem set_eq (h : Draft.AgreeBut f d d') (v : Offer) : d.set f v = d'.set f v := by
  funext g
  rw [Draft.set, Draft.set]
  split
  · rfl
  · rename_i other
    exact h g other

/-- A value given for the setting makes up for the difference. -/
theorem override_eq (h : Draft.AgreeBut f d d') (given : ∃ v, (f.name, v) ∈ values) :
    d.override values = d'.override values := by
  obtain ⟨v, given⟩ := given
  induction values generalizing d d' with
  | nil => cases given
  | cons w values ih =>
      rw [Draft.override, Draft.override]
      rcases List.mem_cons.mp given with rfl | given
      · rw [Setting.ofName?_name]
        dsimp only
        rw [h.set_eq]
      · split
        · exact ih (h.set _ _) given
        · split
          · exact ih h given
          · rfl

theorem complete_eq (h : Draft.AgreeBut f d d')
    (given : ∃ v, (f.name, v) ∈ values ∧ isSomething v = true) (allowDevice : Bool) :
    complete d values allowDevice = complete d' values allowDevice := by
  obtain ⟨v, given, some⟩ := given
  rw [complete, complete, h.override_eq ⟨v, List.mem_filter.mpr ⟨given, some⟩⟩]

end Draft.AgreeBut

/-! ## Two environments -/

/-- Environments that differ in the variable of one setting at most. -/
def AgreeBut (f : Setting) (env env' : Environment) : Prop :=
  ∀ name, name ≠ variableName f → env.value? name = env'.value? name

namespace AgreeBut

variable (agree : AgreeBut f env env')
include agree

theorem filled?_eq (other : g ≠ f) :
    env.filled? (variableName g) = env'.filled? (variableName g) := by
  rw [Environment.filled?, Environment.filled?, agree _ (variableName_injective.ne other)]

theorem faultOf_eq (other : g ≠ f) : faultOf env g = faultOf env' g := by
  rw [faultOf, faultOf, unreadable?, unreadable?, agree.filled?_eq other]

theorem findSome?_eq (others : f ∉ fs) :
    fs.findSome? (faultOf env) = fs.findSome? (faultOf env') := by
  induction fs with
  | nil => rfl
  | cons g fs ih =>
      rw [List.mem_cons, not_or] at others
      rw [List.findSome?_cons, List.findSome?_cons, agree.faultOf_eq (Ne.symm others.1),
        ih others.2]

theorem readDraft (fs : List Setting) :
    Draft.AgreeBut f (readDraft env fs) (readDraft env' fs) := by
  induction fs with
  | nil => exact fun _ _ => rfl
  | cons g fs ih =>
      intro k hk
      rw [Settings.readDraft, Settings.readDraft, List.foldr_cons, List.foldr_cons, Draft.set,
        Draft.set, valueOf, valueOf]
      split
      · rename_i same
        rw [agree.filled?_eq (same ▸ hk)]
      · exact ih k hk

end AgreeBut

/-- The first variable that cannot be read is what is reported. -/
theorem fromEnvironment_of_unreadable (first : ∀ g ∈ f.earlier, unreadable? env g = none)
    (h : unreadable? env f = some raw) (values : List (String × Offer)) (allowDevice : Bool) :
    fromEnvironment env values allowDevice =
      .error (.unreadable (variableName f) (kindText f) raw) := by
  obtain ⟨later, all, -⟩ := f.exists_all_eq
  have before : f.earlier.findSome? (faultOf env) = none :=
    List.findSome?_eq_none_iff.mpr fun g hg => by rw [faultOf, first g hg, Option.map_none]
  rw [fromEnvironment_eq, all, List.findSome?_append, before, Option.none_or, List.findSome?_cons,
    faultOf, h]
  rfl

/-- No variable is reported that can be read. -/
theorem fromEnvironment_ne_of_readable (h : unreadable? env f = none) (kind raw : String)
    (values : List (String × Offer)) (allowDevice : Bool) :
    fromEnvironment env values allowDevice ≠ .error (.unreadable (variableName f) kind raw) := by
  rw [fromEnvironment_eq]
  cases first : Setting.all.findSome? (faultOf env) with
  | none => exact complete_ne_unreadable
  | some e =>
      obtain ⟨g, -, hg⟩ := List.exists_of_findSome?_eq_some first
      obtain ⟨text, unread, rfl⟩ := Option.map_eq_some_iff.mp hg
      intro same
      obtain rfl : g = f := variableName_injective (SettingsFault.unreadable.inj
        (Except.error.inj same)).1
      cases h.symm.trans unread

section Agree

variable (agree : AgreeBut f env env') (allowDevice : Bool)
include agree

theorem fromEnvironment_congr (given : ∃ v, (f.name, v) ∈ values ∧ isSomething v = true)
    (same : unreadable? env f = unreadable? env' f) :
    fromEnvironment env values allowDevice = fromEnvironment env' values allowDevice := by
  have faults : faultOf env = faultOf env' := by
    funext g
    by_cases hg : g = f
    · rw [hg, faultOf, faultOf, same]
    · exact agree.faultOf_eq hg
  rw [fromEnvironment_eq, fromEnvironment_eq, faults,
    (agree.readDraft Setting.all).complete_eq given]

/-- A variable that is read before the one in which the environments differ decides for both. -/
theorem fromEnvironment_congr_of_earlier (h : ∃ g ∈ f.earlier, (unreadable? env g).isSome) :
    fromEnvironment env values allowDevice = fromEnvironment env' values allowDevice := by
  obtain ⟨later, all, -⟩ := f.exists_all_eq
  obtain ⟨g, hg, unread⟩ := h
  obtain ⟨e, he⟩ : ∃ e, f.earlier.findSome? (faultOf env) = some e := by
    refine Option.isSome_iff_exists.mp (List.findSome?_isSome_iff.mpr ⟨g, hg, ?_⟩)
    rw [faultOf, Option.isSome_map, unread]
  have he' := he
  rw [agree.findSome?_eq f.notMem_earlier] at he'
  rw [fromEnvironment_eq, fromEnvironment_eq, all, List.findSome?_append, List.findSome?_append,
    he, he']
  rfl

/-- Let a value be given for a setting, and let two environments differ in the variable of
this setting only.  They lead to the same settings or the same fault just if an earlier
variable cannot be read, or else what cannot be read in this one, if anything, is the same in
both; in particular if it can be read, or is not set, in both.  The first variable that
cannot be read is reported, whatever is given. -/
theorem fromEnvironment_eq_iff (given : ∃ v, (f.name, v) ∈ values ∧ isSomething v = true) :
    (fromEnvironment env values allowDevice = fromEnvironment env' values allowDevice ↔
      (∃ g ∈ f.earlier, (unreadable? env g).isSome) ∨ unreadable? env f = unreadable? env' f) ∧
    ((∀ g ∈ f.earlier, unreadable? env g = none) → ∀ raw, unreadable? env f = some raw →
      fromEnvironment env values allowDevice =
        .error (.unreadable (variableName f) (kindText f) raw)) := by
  refine ⟨⟨fun outcome => ?_, ?_⟩, fun first raw unread =>
    fromEnvironment_of_unreadable first unread values allowDevice⟩
  · by_cases h : ∃ g ∈ f.earlier, (unreadable? env g).isSome
    · exact .inl h
    right
    have first : ∀ g ∈ f.earlier, unreadable? env g = none := fun g hg =>
      Option.not_isSome_iff_eq_none.mp fun unread => h ⟨g, hg, unread⟩
    have first' : ∀ g ∈ f.earlier, unreadable? env' g = none := fun g hg => by
      rw [← first g hg, unreadable?, unreadable?,
        agree.filled?_eq (ne_of_mem_of_not_mem hg f.notMem_earlier)]
    cases unread : unreadable? env f with
    | none =>
        cases unread' : unreadable? env' f with
        | none => rfl
        | some raw =>
            rw [fromEnvironment_of_unreadable first' unread'] at outcome
            exact absurd outcome (fromEnvironment_ne_of_readable unread _ _ _ _)
    | some raw =>
        rw [fromEnvironment_of_unreadable first unread] at outcome
        cases unread' : unreadable? env' f with
        | none => exact absurd outcome.symm (fromEnvironment_ne_of_readable unread' _ _ _ _)
        | some raw' =>
            rw [fromEnvironment_of_unreadable first' unread'] at outcome
            cases outcome
            rfl
  · rintro (earlier | same)
    · exact fromEnvironment_congr_of_earlier agree allowDevice earlier
    · exact fromEnvironment_congr agree allowDevice given same

end Agree

/-- An environment with one variable. -/
theorem agreeBut_single (f : Setting) (raw : String) : AgreeBut f [(variableName f, raw)] [] := by
  intro name other
  rw [Environment.value?, List.find?_cons_of_neg (by simpa using other.symm)]
  rfl

/-- A minimum size is given, so that one of the environment that is out of range does no harm. -/
theorem fromEnvironment_eq_iff_zero :
    fromEnvironment [("SPECTREE_MIN_CLUSTER_SIZE", "0")] [("min_cluster_size", .number (.int 4))]
        false =
      fromEnvironment [] [("min_cluster_size", .number (.int 4))] false :=
  (fromEnvironment_eq_iff (agreeBut_single .minClusterSize "0") false
    ⟨_, List.mem_cons_self, rfl⟩).1.mpr (.inr (by decide +kernel))

/-- A minimum size is given, and still one of the environment that cannot be read is a fault. -/
theorem fromEnvironment_unread :
    AgreeBut .minClusterSize [("SPECTREE_MIN_CLUSTER_SIZE", "x")] [] ∧
    fromEnvironment [("SPECTREE_MIN_CLUSTER_SIZE", "x")] [("min_cluster_size", .number (.int 4))]
        false = .error (.unreadable "SPECTREE_MIN_CLUSTER_SIZE" "an integer" "x") ∧
    ∃ s, fromEnvironment [] [("min_cluster_size", .number (.int 4))] false = .ok s ∧
      s.minClusterSize = .int 4 := by
  refine ⟨agreeBut_single .minClusterSize "x", ?_, ?_⟩
  · exact fromEnvironment_of_unreadable (f := .minClusterSize) (by decide +kernel)
      (by decide +kernel) _ _
  · have unset : readDraft [] Setting.all = defaults := by
      funext g
      cases g <;> rfl
    have passes : (defaults.set .minClusterSize (.number (.int 4))).Passes :=
      passes_defaults.set (by decide +kernel)
    refine ⟨(defaults.set .minClusterSize (.number (.int 4))).settings false, ?_, rfl⟩
    rw [fromEnvironment_eq, show Setting.all.findSome? (faultOf []) = none from rfl, unset]
    exact congrArg (Except.mapError asInvalid) (passes.ofDraft_eq false)

end Settings

end GraphClustering
