import GraphClustering.Profile.Ledger

/-! # Programs of profiled blocks

Blocks are nested: a block for an operation has a report of its own while its body runs, and a block
for a phase adds one to an active report when it is left. Whether profiling is enabled counts where
a block is entered. A failure leaves all blocks around it up to the next attempt, and each of them
is closed. -/

namespace GraphClustering.Profile

/-- A step of a program; `work` is anything that is not profiled. -/
inductive Step (ε α : Type) where
  | work (outcome : Except ε α)
  | start (operation : String) (metadata : Metadata)
  | finish (operation : String)
  | record (operation : String) (phase : Phase)
  | clear
  | enable
  | disable
  | isEnabled
  /-- Steps whose failure is passed over. -/
  | attempt (body : List (Step ε α))
  | operation (name : String) (metadata : Metadata) (body : List (Step ε α))
  | phase (name : String) (operation : Option String) (metadata : Metadata)
      (body : List (Step ε α))

/-- What a step gives. -/
inductive Result (α : Type) where
  | nothing
  | value (x : α)
  | flag (b : Bool)
  | report (r : Report)
  | operation (report : Option Report) (body : List (Result α))
  | phase (body : List (Result α))

namespace Step

variable {ε α : Type}

def reportResult (l : Ledger) (id : Option ReportId) : Result α :=
  match id.bind l.report? with
  | some r => .report r
  | none => .nothing

/-- Closes the block of an operation; its own report is the one that was started for it. -/
def closeOperation (name : String) (own : Option ReportId)
    (r : Ledger × Except ε (List (Result α))) : Ledger × Except ε (Result α) :=
  let l := if own.isSome then (r.1.finish name 0).1 else r.1
  (l, r.2.map fun body => .operation (own.bind l.report?) body)

/-- Closes the block of a phase, which may belong to an operation with a name. -/
def closePhase (entered : Bool) (name : String) (operation : Option String) (metadata : Metadata)
    (r : Ledger × Except ε (List (Result α))) : Ledger × Except ε (Result α) :=
  let l := match entered, operation.filter fun o => !o.isEmpty with
    | true, some o => r.1.addPhase o ⟨name, 0, metadata⟩
    | _, _ => r.1
  (l, r.2.map .phase)

mutual

/-- Runs a step; time stands still. -/
def run (l : Ledger) : Step ε α → Ledger × Except ε (Result α)
  | .work outcome => (l, outcome.map .value)
  | .start o m =>
      let r := l.start o m
      (r.1, .ok (reportResult r.1 (some r.2)))
  | .finish o =>
      let r := l.finish o 0
      (r.1, .ok (reportResult r.1 r.2))
  | .record o p => (l.addPhase o p, .ok .nothing)
  | .clear => (l.clear, .ok .nothing)
  | .enable => ({ l with enabled := true }, .ok .nothing)
  | .disable => ({ l with enabled := false }, .ok .nothing)
  | .isEnabled => (l, .ok (.flag l.enabled))
  | .attempt body => ((runAll l body).1, .ok .nothing)
  | .operation name m body =>
      if l.enabled then
        let r := l.start name m
        closeOperation name (some r.2) (runAll r.1 body)
      else closeOperation name none (runAll l body)
  | .phase name o m body => closePhase l.enabled name o m (runAll l body)

/-- Runs steps one after the other, up to the first failure. -/
def runAll (l : Ledger) : List (Step ε α) → Ledger × Except ε (List (Result α))
  | [] => (l, .ok [])
  | s :: rest =>
      match run l s with
      | (l, .error e) => (l, .error e)
      | (l, .ok x) =>
          let r := runAll l rest
          (r.1, r.2.map (x :: ·))

end

end Step

end GraphClustering.Profile
