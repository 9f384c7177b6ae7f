import GraphClustering.CommandLine.Path

/-! # Files by path -/

namespace GraphClustering.CommandLine

/-- Why a file cannot be read or written. -/
inductive FileFault where
  | missing
  | isFolder
  | notFolder
  /-- A folder is to be made where a file is. -/
  | isFile
deriving DecidableEq, Repr

/-- The texts of files, by their resolved paths. -/
abbrev Folder := List (Path × String)

namespace Folder

def ofTexts (files : List (String × String)) : Folder :=
  files.map fun f => ((Path.ofText f.1).resolve, f.2)

def text? (f : Folder) (p : Path) : Option String :=
  (f.find? fun x => x.1 = p).map Prod.snd

/-- The path itself, or a file with it as a folder, is there. -/
def isFolder (f : Folder) (p : Path) : Bool :=
  p.parts.isEmpty || f.any fun x => p.root == x.1.root && x.1.parts != p.parts &&
    p.parts.isPrefixOf x.1.parts

/-- A file stands where the path needs a folder. -/
def isBlocked (f : Folder) (p : Path) : Bool :=
  f.any fun x => x.1.root == p.root && x.1.parts != p.parts && x.1.parts.isPrefixOf p.parts

def read (f : Folder) (path : Path) : Except FileFault String :=
  let p := path.resolve
  match f.text? p with
  | some s => .ok s
  | none =>
      if f.isFolder p then .error .isFolder
      else if f.isBlocked p then .error .notFolder else .error .missing

/-- Puts a text into a file, with the folders on the way. -/
def write (f : Folder) (path : Path) (text : String) : Except FileFault Folder :=
  let p := path.resolve
  if (f.text? p.parent).isSome then .error .isFile
  else if f.isBlocked p then .error .notFolder
  else if f.isFolder p then .error .isFolder
  else .ok ((p, text) :: f.filter fun x => x.1 != p)

/-- Opens a file to add to it. -/
def open? (f : Folder) (path : Path) : Except FileFault Folder :=
  f.write path ((f.text? path.resolve).getD "")

/-- The files that another folder does not have, by name. -/
def newFiles (before after : Folder) : Folder :=
  let added := after.filter fun x => (before.text? x.1).isNone
  added.mergeSort fun a b => !(b.1.text < a.1.text)

end Folder

end GraphClustering.CommandLine
