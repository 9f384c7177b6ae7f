import GraphClustering.Proofs.Profile.Spans

/-!
# Reports that are kept

The ledger has one active report of each name, so that a block takes the place of an open one
of its name around it.  No report is active twice or active and finished, whatever is done
(`Step.sound_runAll`).  Blocks that are run leave the ledger with their reports
(`Spans.reports`) behind the finished ones, the phases of an active name with its report, and
no name active that was one of theirs (`Records`): each step of a program does, and so do all
of them (`Step.traces_runAll`).
-/

namespace GraphClustering.Profile

variable {l l' l'' : Ledger} {n o : String} {m : Metadata} {id : ReportId} {p : Phase}
variable {s t inside : Spans}

namespace Ledger

/-! ## Active reports -/

/-- Names and numbers of active reports differ. -/
def Apart (as : List (String × ReportId)) : Prop :=
  as.Pairwise fun a b => a.1 ≠ b.1 ∧ a.2 ≠ b.2

variable {as : List (String × ReportId)} {a : String × ReportId}

theorem mem_activate_self : (n, id) ∈ activate n id as := by
  induction as with
  | nil => exact List.mem_singleton.mpr rfl
  | cons a as ih =>
      rw [activate]
      split
      · exact List.mem_cons_self
      · exact List.mem_cons_of_mem a ih

theorem mem_activate_of_ne (ha : a ∈ as) (ne : a.1 ≠ n) : a ∈ activate n id as := by
  induction as with
  | nil => cases ha
  | cons b as ih =>
      rw [activate]
      rcases List.mem_cons.mp ha with rfl | ha
      · rw [if_neg (by simpa using ne)]
        exact List.mem_cons_self
      · split
        · exact List.mem_cons_of_mem _ ha
        · exact List.mem_cons_of_mem b (ih ha)

theorem eq_or_mem_of_mem_activate (ha : a ∈ activate n id as) : a = (n, id) ∨ a ∈ as := by
  induction as with
  | nil => exact .inl (List.mem_singleton.mp ha)
  | cons b as ih =>
      rw [activate] at ha
      split at ha
      · exact (List.mem_cons.mp ha).imp_right (List.mem_cons_of_mem b)
      · rcases List.mem_cons.mp ha with rfl | ha
        · exact .inr List.mem_cons_self
        · exact (ih ha).imp_right (List.mem_cons_of_mem b)

theorem filter_activate : (activate n id as).filter (fun a => a.1 != n) =
    as.filter fun a => a.1 != n := by
  induction as with
  | nil => simp [activate]
  | cons a as ih =>
      rw [activate]
      split
      · rename_i same
        simp [eq_of_beq same]
      · rw [List.filter_cons, List.filter_cons, ih]

theorem Apart.activate (apart : Apart as) (fresh : ∀ a ∈ as, a.2 ≠ id) :
    Apart (activate n id as) := by
  induction as with
  | nil => exact List.pairwise_singleton _ _
  | cons a as ih =>
      obtain ⟨first, rest⟩ := List.pairwise_cons.mp apart
      obtain ⟨new, others⟩ := List.forall_mem_cons.mp fresh
      rw [Ledger.activate]
      split
      · rename_i same
        refine List.pairwise_cons.mpr ⟨fun b hb => ⟨?_, (others b hb).symm⟩, rest⟩
        exact eq_of_beq same ▸ (first b hb).1
      · rename_i differs
        refine List.pairwise_cons.mpr ⟨fun b hb => ?_, ih rest others⟩
        rcases eq_or_mem_of_mem_activate hb with rfl | hb
        · exact ⟨by simpa using differs, new⟩
        · exact first b hb

theorem Apart.ne_of_ne (apart : Apart as) {b : String × ReportId} (ha : a ∈ as) (hb : b ∈ as)
    (ne : a ≠ b) : a.1 ≠ b.1 ∧ a.2 ≠ b.2 :=
  have : Std.Symm fun a b : String × ReportId => a.1 ≠ b.1 ∧ a.2 ≠ b.2 :=
    ⟨fun _ _ h => ⟨h.1.symm, h.2.symm⟩⟩
  List.Pairwise.forall apart ha hb ne

theorem active?_of_mem (apart : Apart l.active) (h : (n, id) ∈ l.active) :
    l.active? n = some id := by
  obtain ⟨a, found⟩ := Option.isSome_iff_exists.mp <|
    List.find?_isSome (p := fun a => a.1 == n).mpr ⟨(n, id), h, beq_self_eq_true n⟩
  have same : a.1 = n := by simpa using List.find?_some found
  obtain rfl : a = (n, id) := by
    by_contra ne
    exact (apart.ne_of_ne (List.mem_of_find?_eq_some found) h ne).1 same
  rw [active?, found, Option.map_some]

theorem active?_of_notMem (h : ∀ a ∈ l.active, a.1 ≠ n) : l.active? n = none := by
  rw [active?, List.find?_eq_none.mpr fun a ha => by simpa using h a ha, Option.map_none]

theorem active_cases (l : Ledger) (n : String) :
    (∀ a ∈ l.active, a.1 ≠ n) ∨ ∃ id, (n, id) ∈ l.active := by
  by_cases h : ∃ a ∈ l.active, a.1 = n
  · obtain ⟨⟨_, id⟩, ha, rfl⟩ := h
    exact .inr ⟨id, ha⟩
  · exact .inl fun a ha same => h ⟨a, ha, same⟩

/-! ## Sound ledgers -/

/-- A ledger that has its reports, each of them at most once active and none of these finished. -/
structure Sound (l : Ledger) : Prop where
  finished : ∀ id ∈ l.finished, id < l.reports.length
  active : ∀ a ∈ l.active, a.2 < l.reports.length ∧ a.2 ∉ l.finished
  apart : Apart l.active

theorem sound_empty : empty.Sound :=
  ⟨nofun, nofun, List.Pairwise.nil⟩

/-- A ledger with another version of one of its reports. -/
def alter (l : Ledger) (id : ReportId) (f : Report → Report) : Ledger :=
  { l with reports := l.reports.modify id f }

theorem report?_alter (l : Ledger) (id j : ReportId) (f : Report → Report) :
    (l.alter id f).report? j = if id = j then (l.report? j).map f else l.report? j := by
  rw [report?, alter, List.getElem?_modify, report?]
  cases l.reports[j]? with
  | none => exact (ite_self none).symm
  | some r => exact apply_ite some (id = j) (f r) r

theorem finishedReports_alter (unfinished : id ∉ l.finished) (f : Report → Report) :
    (l.alter id f).finishedReports = l.finishedReports :=
  List.filterMap_congr fun j hj => by
    rw [report?_alter, if_neg (ne_of_mem_of_not_mem hj unfinished).symm]

theorem Sound.alter (hl : l.Sound) (id : ReportId) (f : Report → Report) :
    (l.alter id f).Sound where
  finished := by simpa [Ledger.alter] using hl.finished
  active := by simpa [Ledger.alter] using hl.active
  apart := hl.apart

/-! ## Starting and finishing -/

section Start

variable (hl : l.Sound) (n : String) (m : Metadata)

theorem report?_start_self : (l.start n m).1.report? l.reports.length = some ⟨n, 0, [], m⟩ :=
  List.getElem?_concat_length

theorem report?_start {j : ReportId} (hj : j < l.reports.length) :
    (l.start n m).1.report? j = l.report? j :=
  List.getElem?_append_left hj

include hl

theorem Sound.start : (l.start n m).1.Sound where
  finished id hid := by
    rw [Ledger.start, List.length_append]
    exact Nat.lt_succ_of_lt (hl.finished id hid)
  active a ha := by
    rw [Ledger.start, List.length_append]
    rcases eq_or_mem_of_mem_activate ha with rfl | ha
    · exact ⟨Nat.lt_succ_self _, fun done => lt_irrefl _ (hl.finished _ done)⟩
    · exact ⟨Nat.lt_succ_of_lt (hl.active a ha).1, (hl.active a ha).2⟩
  apart := hl.apart.activate fun a ha => (hl.active a ha).1.ne

theorem finishedReports_start : (l.start n m).1.finishedReports = l.finishedReports :=
  List.filterMap_congr fun j hj => report?_start n m (hl.finished j hj)

end Start

theorem finish_of_not_active (h : ∀ a ∈ l.active, a.1 ≠ n) (d : Float) : (l.finish n d).1 = l := by
  rw [finish, active?_of_notMem h]

theorem finish_of_active (hl : l.Sound) (h : (n, id) ∈ l.active) (d : Float) :
    (l.finish n d).1 = { l.alter id (fun r => { r with duration := d }) with
      active := l.active.filter fun a => a.1 != n, finished := l.finished ++ [id] } := by
  rw [finish, active?_of_mem hl.apart h]
  rfl

theorem Sound.finish (hl : l.Sound) (n : String) (d : Float) : (l.finish n d).1.Sound := by
  rcases l.active_cases n with none | ⟨id, ha⟩
  · rwa [finish_of_not_active none]
  · rw [finish_of_active hl ha]
    have altered := hl.alter id fun r => { r with duration := d }
    refine ⟨fun j hj => ?_, fun b hb => ?_, hl.apart.filter _⟩
    · rcases List.mem_append.mp hj with hj | hj
      · exact altered.finished j hj
      · rw [List.mem_singleton.mp hj]
        exact (altered.active _ ha).1
    · obtain ⟨hb, ne⟩ := List.mem_filter.mp hb
      have differ : b ≠ (n, id) := by
        rintro rfl
        exact absurd ne (by simp)
      refine ⟨(altered.active b hb).1, fun done => ?_⟩
      rcases List.mem_append.mp done with done | done
      · exact (hl.active b hb).2 done
      · exact (hl.apart.ne_of_ne hb ha differ).2 (List.mem_singleton.mp done)

theorem active_finish (l : Ledger) (n : String) (d : Float) :
    (l.finish n d).1.active = l.active.filter fun a => a.1 != n := by
  rw [finish]
  cases found : l.active? n with
  | some id => rfl
  | none =>
      refine (List.filter_eq_self.mpr fun a ha => ?_).symm
      rw [active?, Option.map_eq_none_iff, List.find?_eq_none] at found
      simpa using found a ha

theorem report?_finish (hl : l.Sound) (ha : a ∈ l.active) (ne : a.1 ≠ n) (d : Float) :
    (l.finish n d).1.report? a.2 = l.report? a.2 := by
  rcases l.active_cases n with none | ⟨id, active⟩
  · rw [finish_of_not_active none]
  · rw [finish_of_active hl active]
    have number := (hl.apart.ne_of_ne ha active fun same => ne (same ▸ rfl)).2
    exact (report?_alter l id a.2 _).trans (if_neg number.symm)

theorem finishedReports_finish (hl : l.Sound) (ha : (n, id) ∈ l.active) {r : Report}
    (found : l.report? id = some r) (d : Float) :
    (l.finish n d).1.finishedReports = l.finishedReports ++ [{ r with duration := d }] := by
  rw [finish_of_active hl ha]
  refine List.filterMap_append.trans ?_
  refine congrArg₂ (· ++ ·) (finishedReports_alter (hl.active _ ha).2 _) ?_
  have altered := report?_alter l id id fun r => { r with duration := d }
  rw [if_pos rfl, found, Option.map_some] at altered
  exact List.filterMap_cons_some altered

/-! ## Phases -/

section Phase

variable (hl : l.Sound) (o : String) (p : Phase)

include hl

theorem addPhase_cases : (∀ a ∈ l.active, a.1 ≠ o) ∧ l.addPhase o p = l ∨
    ∃ id, (o, id) ∈ l.active ∧ l.addPhase o p = l.alter id fun r => r.addPhase p := by
  refine (l.active_cases o).imp (fun none => ⟨none, ?_⟩) fun ⟨id, ha⟩ => ⟨id, ha, ?_⟩
  · rw [addPhase, active?_of_notMem none]
  · rw [addPhase, active?_of_mem hl.apart ha]
    rfl

theorem Sound.addPhase : (l.addPhase o p).Sound := by
  rcases addPhase_cases hl o p with ⟨-, same⟩ | ⟨id, -, altered⟩
  · rwa [same]
  · rw [altered]
    exact hl.alter id _

theorem active_addPhase : (l.addPhase o p).active = l.active := by
  rcases addPhase_cases hl o p with ⟨-, same⟩ | ⟨id, -, altered⟩
  · rw [same]
  · rw [altered]
    rfl

theorem finishedReports_addPhase : (l.addPhase o p).finishedReports = l.finishedReports := by
  rcases addPhase_cases hl o p with ⟨-, same⟩ | ⟨id, ha, altered⟩
  · rw [same]
  · rw [altered, finishedReports_alter (hl.active _ ha).2]

theorem report?_addPhase (ha : a ∈ l.active) : (l.addPhase o p).report? a.2 =
    (l.report? a.2).map fun r => if a.1 = o then r.addPhase p else r := by
  rcases addPhase_cases hl o p with ⟨none, same⟩ | ⟨id, active, altered⟩
  · simp only [same, none a ha, if_false, Option.map_id_fun']
    rfl
  · rw [altered, report?_alter]
    by_cases same : a = (o, id)
    · simp only [same, if_true]
    · obtain ⟨name, number⟩ := hl.apart.ne_of_ne ha active same
      simp only [name, number.symm, if_false, Option.map_id_fun']
      rfl

end Phase

theorem sound_clear (l : Ledger) : l.clear.Sound :=
  ⟨nofun, nofun, List.Pairwise.nil⟩

/-! ## The flag -/

@[simp] theorem enabled_finish (l : Ledger) (n : String) (d : Float) :
    (l.finish n d).1.enabled = l.enabled := by
  rw [finish]
  split <;> rfl

@[simp] theorem enabled_addPhase (l : Ledger) (o : String) (p : Phase) :
    (l.addPhase o p).enabled = l.enabled := by
  rw [addPhase]
  split <;> rfl

end Ledger

/-! ## What blocks leave -/

def Report.addPhases (r : Report) (ps : List Phase) : Report :=
  { r with phases := r.phases ++ ps }

/-- A ledger after blocks: none of their names is active, their reports are finished, and the
phases for another active name are with its report. -/
structure Records (l : Ledger) (s : Spans) (l' : Ledger) : Prop where
  sound : l'.Sound
  active : l'.active = l.active.filter fun a => a.1 ∉ s.names
  finished : l'.finishedReports = l.finishedReports ++ s.reports
  taken : ∀ a ∈ l.active, a.1 ∉ s.names →
    l'.report? a.2 = (l.report? a.2).map fun r => r.addPhases (s.phasesFor a.1)

namespace Records

theorem mem_active_iff (h : Records l s l') {a : String × ReportId} :
    a ∈ l'.active ↔ a ∈ l.active ∧ a.1 ∉ s.names := by
  rw [h.active, List.mem_filter, decide_eq_true_iff]

theorem nil (hl : l.Sound) (enabled : Bool) : Records l .nil { l with enabled := enabled } where
  sound := ⟨hl.finished, hl.active, hl.apart⟩
  active := (List.filter_eq_self.mpr fun _ _ => decide_eq_true List.not_mem_nil).symm
  finished := (List.append_nil _).symm
  taken a _ _ := by
    change l.report? a.2 = _
    cases l.report? a.2 with
    | none => rfl
    | some r => simp [Spans.phasesFor, Report.addPhases]

theorem append (first : Records l s l') (second : Records l' t l'') :
    Records l (s.append t) l'' where
  sound := second.sound
  active := by
    rw [second.active, first.active, List.filter_filter]
    refine List.filter_congr fun a _ => ?_
    simp [Bool.and_comm]
  finished := by rw [second.finished, first.finished, Spans.reports_append, List.append_assoc]
  taken a ha absent := by
    rw [Spans.names_append, List.mem_append, not_or] at absent
    have kept := first.mem_active_iff.mpr ⟨ha, absent.1⟩
    rw [second.taken a kept absent.2, first.taken a ha absent.1, Option.map_map]
    refine congrArg (fun f => Option.map f (l.report? a.2)) (funext fun r => ?_)
    simp [Report.addPhases]

/-- A phase is added where it is left, to the active report of its operation. -/
theorem phase (h : Records l inside l') (n : String) (q : Option String) (m : Metadata) :
    Records l (.phase n q m inside .nil) (q.elim l' fun o => l'.addPhase o ⟨n, 0, m⟩) := by
  cases q with
  | none =>
      refine ⟨h.sound, ?_, ?_, ?_⟩
      · simpa [Spans.names] using h.active
      · simpa [Spans.reports] using h.finished
      · simpa [Spans.names, Spans.phasesFor] using h.taken
  | some o =>
      refine ⟨h.sound.addPhase o _, ?_, ?_, fun a ha absent => ?_⟩
      · rw [Option.elim_some, Ledger.active_addPhase h.sound, h.active]
        simp [Spans.names]
      · rw [Option.elim_some, Ledger.finishedReports_addPhase h.sound, h.finished]
        simp [Spans.reports]
      · have absent : a.1 ∉ inside.names := by simpa [Spans.names] using absent
        have kept := h.mem_active_iff.mpr ⟨ha, absent⟩
        rw [Option.elim_some, Ledger.report?_addPhase h.sound o _ kept, h.taken a ha absent,
          Option.map_map]
        refine congrArg (fun f => Option.map f (l.report? a.2)) (funext fun r => ?_)
        by_cases same : a.1 = o
        · simp [same, Spans.phasesFor, Report.addPhases, Report.addPhase]
        · simp [same, Ne.symm same, Spans.phasesFor, Report.addPhases]

/-- A block of an operation has its report finished where it is left, unless a block of that
name was started inside it. -/
theorem finishedReports_finish (h : Records (l.start n m).1 inside l') :
    (l'.finish n 0).1.finishedReports =
      l'.finishedReports ++ if n ∈ inside.names then [] else [Spans.own n m inside] := by
  -- The name is still active, with the report of this block, unless one inside took its place.
  split
  · rename_i again
    rw [Ledger.finish_of_not_active, List.append_nil]
    intro a ha same
    exact (h.mem_active_iff.mp ha).2 (same ▸ again)
  · rename_i alone
    have started : (n, l.reports.length) ∈ (l.start n m).1.active := Ledger.mem_activate_self
    have kept := h.mem_active_iff.mpr ⟨started, alone⟩
    have own := h.taken _ started alone
    rw [Ledger.report?_start_self, Option.map_some] at own
    exact Ledger.finishedReports_finish h.sound kept own 0

theorem operation (hl : l.Sound) (h : Records (l.start n m).1 inside l') :
    Records l (.operation n m inside .nil) (l'.finish n 0).1 := by
  refine ⟨h.sound.finish n 0, ?_, ?_, fun a ha absent => ?_⟩
  · rw [Ledger.active_finish, h.active, List.filter_comm]
    change List.filter _ (List.filter _ (Ledger.activate n _ l.active)) = _
    rw [Ledger.filter_activate, List.filter_filter]
    refine List.filter_congr fun a _ => ?_
    simp [Spans.names, Bool.and_comm, bne, beq_eq_decide]
  · rw [h.finishedReports_finish, h.finished, Ledger.finishedReports_start hl]
    simp [Spans.reports]
  · obtain ⟨ne, absent⟩ : a.1 ≠ n ∧ a.1 ∉ inside.names := by simpa [Spans.names] using absent
    have started : a ∈ (l.start n m).1.active := Ledger.mem_activate_of_ne ha ne
    have kept := h.mem_active_iff.mpr ⟨started, absent⟩
    rw [Ledger.report?_finish h.sound kept ne, h.taken a started absent,
      Ledger.report?_start n m (hl.active a ha).1]
    simp [Spans.phasesFor]

end Records

/-! ## Runs -/

variable {ε α β : Type}

/-- The steps tell what a run of them does with the ledger. -/
structure Traces (l : Ledger) (t : Trace) (r : Ledger × Except ε β) : Prop where
  records : Records l t.spans r.1
  enabled : r.1.enabled = t.enabled
  completed : r.2.isOk = t.completed

theorem isOk_map (x : Except ε α) (f : α → β) : (x.map f).isOk = x.isOk := by
  cases x <;> rfl

theorem Traces.map {t : Trace} {r : Ledger × Except ε α} (h : Traces l t r) (f : α → β) :
    Traces l t (r.1, r.2.map f) :=
  ⟨h.records, h.enabled, (isOk_map r.2 f).trans h.completed⟩

namespace Step

theorem run_operation_of_enabled (on : l.enabled = true) (n : String) (m : Metadata)
    (body : List (Step ε α)) : run l (.operation n m body) =
      closeOperation n (some l.reports.length) (runAll (l.start n m).1 body) := by
  rw [run, if_pos on]
  rfl

theorem traces_closeOperation (hl : l.Sound) (n : String) (m : Metadata) {t : Trace}
    {r : Ledger × Except ε (List (Result α))} (h : Traces (l.start n m).1 t r) (id : ReportId) :
    Traces l { t with spans := .operation n m t.spans .nil } (closeOperation n (some id) r) where
  records := h.records.operation hl
  enabled := (Ledger.enabled_finish r.1 n 0).trans h.enabled
  completed := (isOk_map r.2 _).trans h.completed

theorem traces_closePhase (n : String) (o : Option String) (m : Metadata) {t : Trace}
    {r : Ledger × Except ε (List (Result α))} (h : Traces l t r) :
    Traces l { t with spans := .phase n (o.filter fun o => !o.isEmpty) m t.spans .nil }
      (closePhase true n o m r) := by
  have records := h.records.phase n (o.filter fun o => !o.isEmpty) m
  unfold closePhase
  cases named : o.filter fun o => !o.isEmpty with
  | none =>
      rw [named] at records
      exact ⟨records, h.enabled, (isOk_map r.2 _).trans h.completed⟩
  | some o =>
      rw [named] at records
      exact ⟨records, (Ledger.enabled_addPhase r.1 o _).trans h.enabled,
        (isOk_map r.2 _).trans h.completed⟩

/-! ## Any program -/

theorem sound_closeOperation (n : String) (own : Option ReportId)
    {r : Ledger × Except ε (List (Result α))} (hr : r.1.Sound) :
    (closeOperation n own r).1.Sound := by
  cases own with
  | none => exact hr
  | some id => exact hr.finish n 0

theorem sound_closePhase (entered : Bool) (n : String) (o : Option String) (m : Metadata)
    {r : Ledger × Except ε (List (Result α))} (hr : r.1.Sound) :
    (closePhase entered n o m r).1.Sound := by
  unfold closePhase
  dsimp only
  split
  · exact hr.addPhase _ _
  · exact hr

mutual

/-- The ledger stays sound whatever is done with it. -/
theorem sound_run (s : Step ε α) (l : Ledger) (hl : l.Sound) : (run l s).1.Sound := by
  match s with
  | .work _ | .isEnabled => exact hl
  | .start n m => exact hl.start n m
  | .finish n => exact hl.finish n 0
  | .record o p => exact hl.addPhase o p
  | .clear => exact l.sound_clear
  | .enable | .disable => exact ⟨hl.finished, hl.active, hl.apart⟩
  | .attempt body => exact sound_runAll body l hl
  | .operation n m body =>
      rw [run]
      split
      · exact sound_closeOperation n _ (sound_runAll body _ (hl.start n m))
      · exact sound_closeOperation n none (sound_runAll body l hl)
  | .phase n o m body => exact sound_closePhase _ n o m (sound_runAll body l hl)

theorem sound_runAll (steps : List (Step ε α)) (l : Ledger) (hl : l.Sound) :
    (runAll l steps).1.Sound := by
  match steps with
  | [] => exact hl
  | s :: rest =>
      have first := sound_run s l hl
      rw [runAll]
      rcases ran : run l s with ⟨l', x⟩
      rw [ran] at first
      cases x with
      | error e => exact first
      | ok x => exact sound_runAll rest l' first

end

/-! ## Programs of blocks -/

mutual

/-- A step of a program of blocks does what its trace says. -/
theorem traces_run (s : Step ε α) (l : Ledger) (blocks : BlocksOnly s) (hl : l.Sound) :
    Traces l (trace l.enabled s) (run l s) := by
  match s with
  | .work outcome => exact ⟨.nil hl l.enabled, rfl, isOk_map outcome _⟩
  | .enable => exact ⟨.nil hl true, rfl, rfl⟩
  | .disable => exact ⟨.nil hl false, rfl, rfl⟩
  | .isEnabled => exact ⟨.nil hl l.enabled, rfl, rfl⟩
  | .attempt body =>
      have h := traces_runAll body l blocks hl
      exact ⟨h.records, h.enabled, rfl⟩
  | .operation n m body =>
      cases on : l.enabled with
      | true =>
          have h := traces_runAll body (l.start n m).1 blocks (hl.start n m)
          rw [trace, run_operation_of_enabled on, if_pos rfl]
          exact on ▸ traces_closeOperation hl n m h l.reports.length
      | false =>
          have h := traces_runAll body l blocks hl
          rw [on] at h
          rw [trace, run, on]
          exact h.map _
  | .phase n o m body =>
      have h := traces_runAll body l blocks hl
      rw [trace, run]
      cases on : l.enabled with
      | true =>
          rw [on] at h
          exact traces_closePhase n o m h
      | false =>
          rw [on] at h
          exact h.map _

/-- Steps of a program of blocks do what their trace says. -/
theorem traces_runAll (steps : List (Step ε α)) (l : Ledger) (blocks : AllBlocksOnly steps)
    (hl : l.Sound) : Traces l (traceAll l.enabled steps) (runAll l steps) := by
  match steps with
  | [] => exact ⟨.nil hl l.enabled, rfl, rfl⟩
  | s :: rest =>
      have first := traces_run s l blocks.1 hl
      rw [traceAll, runAll]
      rcases ran : run l s with ⟨l', x⟩
      rw [ran] at first
      rw [← first.completed]
      cases x with
      | error e => exact ⟨first.records, first.enabled, first.completed⟩
      | ok x =>
          -- The trace of the rest starts from the flag that the first step leaves.
          have others := traces_runAll rest l' blocks.2 first.records.sound
          have flag : l'.enabled = (trace l.enabled s).enabled := first.enabled
          rw [flag] at others
          have both := first.records.append others.records
          exact ⟨both, others.enabled, (isOk_map (runAll l' rest).2 _).trans others.completed⟩

end

/-- Steps of a program of blocks put behind the finished reports those of the blocks that no
other block of their name was entered in, each where its block is left.  These are the reports of
all blocks just if no block lies within another one of its name, and then they hold each phase
that was left in a block of its operation once. -/
theorem reports_runAll (hl : l.Sound) :
    (∀ steps : List (Step ε α), AllBlocksOnly steps → ∃ spans,
      spans = (traceAll l.enabled steps).spans ∧
      (runAll l steps).1.finishedReports = l.finishedReports ++ spans.reports ∧
      (spans.reports = spans.operations ↔ spans.Lone) ∧
      (spans.Lone → (spans.reports.flatMap Spans.tagged).Perm (spans.attached []))) ∧
    ∀ (n : String) (m : Metadata) (body : List (Step ε α)), AllBlocksOnly body →
      l.enabled = true → ∃ inside, inside = (traceAll true body).spans ∧
        (run l (.operation n m body)).1.finishedReports =
          (runAll (l.start n m).1 body).1.finishedReports ++
            if n ∈ inside.names then [] else [Spans.own n m inside] := by
  refine ⟨fun steps blocks => ⟨_, rfl, ?_⟩, fun n m body blocks on => ⟨_, rfl, ?_⟩⟩
  · have h := (traces_runAll steps l blocks hl).records
    exact ⟨h.finished, Spans.reports_eq_operations_iff, Spans.tagged_perm_attached⟩
  · have h := (traces_runAll body (l.start n m).1 blocks (hl.start n m)).records
    rw [show (l.start n m).1.enabled = true from on] at h
    rw [run_operation_of_enabled on]
    exact h.finishedReports_finish

/-- A block that fails, and one around another of its name that is entered while profiling is
disabled. -/
def interrupted : List (Step Unit Unit) :=
  [.attempt [.operation "build" [] [.work (.error ())]],
    .operation "cluster" [] [.disable, .operation "cluster" [] [], .enable,
      .phase "sweep" (some "cluster") [] []]]

/-- Neither of them loses its report. -/
theorem reports_runAll_interrupted : (runAll .empty interrupted).1.finishedReports =
    [⟨"build", 0, [], []⟩, ⟨"cluster", 0, [⟨"sweep", 0, []⟩], []⟩] := by
  have blocks : AllBlocksOnly interrupted := by simp [interrupted, AllBlocksOnly, BlocksOnly]
  obtain ⟨spans, rfl, finished, -⟩ := (reports_runAll Ledger.sound_empty).1 interrupted blocks
  rw [finished]
  rfl

/-- A block in another one of its name. -/
def again : Step Unit Unit :=
  .operation "a" [("n", .nat 1)] [.operation "a" [("n", .nat 2)] []]

/-- The report of the outer block is lost. -/
theorem reports_again : BlocksOnly again ∧
    (trace true again).spans.operations =
      [⟨"a", 0, [], [("n", .nat 2)]⟩, ⟨"a", 0, [], [("n", .nat 1)]⟩] ∧
    (run .empty again).1.finishedReports = [⟨"a", 0, [], [("n", .nat 2)]⟩] :=
  ⟨by simp [again, AllBlocksOnly, BlocksOnly], rfl, rfl⟩

end Step

end GraphClustering.Profile
