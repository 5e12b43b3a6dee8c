import AccAsm.Text.Path

/-! # Source trees

Files that can be read by a path. -/

namespace AccAsm
open Text (lit)

/-- Why an operation on a file failed. -/
inductive FileFlaw where
  /-- A tree has no such file. -/
  | notExist
  /-- A disk has no such file. -/
  | noSuchFile
  | invalidArgument
  | isDirectory
  | notDirectory
  | nameTooLong
deriving DecidableEq, Repr

namespace FileFlaw

def message : FileFlaw → Text
  | notExist => lit "file does not exist"
  | noSuchFile => lit "no such file or directory"
  | invalidArgument => lit "invalid argument"
  | isDirectory => lit "is a directory"
  | notDirectory => lit "not a directory"
  | nameTooLong => lit "file name too long"

/-- There is no such file, as opposed to one that cannot be used. -/
def isMissing : FileFlaw → Bool
  | notExist | noSuchFile => true
  | _ => false

end FileFlaw

/-- A failed operation on the file at `path`. -/
structure FileError where
  operation : Text
  path : Text
  flaw : FileFlaw
deriving DecidableEq, Repr

def FileError.message (e : FileError) : Text :=
  e.operation ++ lit " " ++ e.path ++ lit ": " ++ e.flaw.message

/-- Finitely many files. -/
structure SourceTree where
  read : Text → Except FileError Text
  /-- Holds the path of every file that can be read. -/
  paths : List Text
  mem_of_read : ∀ {p t : Text}, read p = .ok t → p ∈ paths

namespace SourceTree

/-- `p` is the root or a proper part of the path of some file. -/
def isDirectoryOf (files : List (Text × Text)) (p : Text) : Bool :=
  p == lit "." || files.any fun f => (p ++ [Path.slash]).isPrefixOf f.1

/-- Reads one of the given files. -/
def readFrom (files : List (Text × Text)) (p : Text) : Except FileError Text :=
  if Path.isLocal p then
    match files.lookup p with
    | some text => .ok text
    | none =>
      if isDirectoryOf files p then .error ⟨lit "read", p, .invalidArgument⟩
      else .error ⟨lit "open", p, .notExist⟩
  else .error ⟨lit "open", p, .notExist⟩

theorem mem_of_lookup {files : List (Text × Text)} {p t : Text} (h : files.lookup p = some t) :
    p ∈ files.map Prod.fst := by
  induction files with
  | nil => simp at h
  | cons f rest ih =>
    rw [List.lookup_cons] at h
    split at h
    next heq => simp [eq_of_beq heq]
    · exact List.mem_cons_of_mem _ (ih h)

theorem mem_of_readFrom {files : List (Text × Text)} {p t : Text} (h : readFrom files p = .ok t) :
    p ∈ files.map Prod.fst := by
  unfold readFrom at h
  split at h
  · split at h
    next hl => exact mem_of_lookup hl
    · split at h <;> cases h
  · cases h

/-- The tree of the given files, by path. -/
def ofFiles (files : List (Text × Text)) : SourceTree :=
  ⟨readFrom files, files.map Prod.fst, mem_of_readFrom⟩

end SourceTree
end AccAsm
