import GraphClustering.Profile.Report

/-! # The ledger of reports

Every report that was ever started is kept under a number. One report of each name may be active,
and takes the phases of that name; a new one of the same name takes its place. -/

namespace GraphClustering.Profile

abbrev ReportId := Nat

structure Ledger where
  enabled : Bool
  /-- All reports, by number. -/
  reports : List Report
  active : List (String × ReportId)
  finished : List ReportId

namespace Ledger

def empty : Ledger := ⟨true, [], [], []⟩

def report? (l : Ledger) (id : ReportId) : Option Report :=
  l.reports[id]?

def active? (l : Ledger) (operation : String) : Option ReportId :=
  (l.active.find? fun a => a.1 == operation).map Prod.snd

/-- A name that is active already keeps its place. -/
def activate (operation : String) (id : ReportId) :
    List (String × ReportId) → List (String × ReportId)
  | [] => [(operation, id)]
  | a :: rest =>
      if a.1 == operation then (operation, id) :: rest else a :: activate operation id rest

def start (l : Ledger) (operation : String) (metadata : Metadata) : Ledger × ReportId :=
  let id := l.reports.length
  ({ l with
      reports := l.reports ++ [⟨operation, 0, [], metadata⟩]
      active := activate operation id l.active }, id)

/-- Moves the active report of a name to the finished ones, with its duration. -/
def finish (l : Ledger) (operation : String) (duration : Float) : Ledger × Option ReportId :=
  match l.active? operation with
  | none => (l, none)
  | some id =>
      ({ l with
          reports := l.reports.modify id fun r => { r with duration := duration }
          active := l.active.filter fun a => a.1 != operation
          finished := l.finished ++ [id] }, some id)

/-- Adds a phase to the active report of a name, if there is one. -/
def addPhase (l : Ledger) (operation : String) (p : Phase) : Ledger :=
  match l.active? operation with
  | none => l
  | some id => { l with reports := l.reports.modify id fun r => r.addPhase p }

/-- Forgets the finished and the active reports. -/
def clear (l : Ledger) : Ledger :=
  { l with active := [], finished := [] }

def activeNames (l : Ledger) : List String :=
  l.active.map Prod.fst

def finishedReports (l : Ledger) : List Report :=
  l.finished.filterMap l.report?

end Ledger

end GraphClustering.Profile
