import AccAsm.SourceTree

/-! # Disks

Files and directories, and the rules by which a path is followed to one of them. A place is given by
the names that lead to it from the top. -/

namespace AccAsm
open Text (lit)

inductive DiskEntry where
  | file (contents : Text)
  | directory
deriving DecidableEq, Repr

/-- The entries of a disk by place, the names of which are joined by slashes. -/
structure Disk where
  entries : List (Text × DiskEntry)
deriving DecidableEq, Repr

namespace Disk

/-- The longest name of a file. -/
def nameLimit : Nat := 255

/-- The longest path that is followed. -/
def pathLimit : Nat := 4095

def placeKey (place : List Text) : Text := List.intercalate [Path.slash] place

/-- The names in a path. -/
def names (p : Text) : List Text := (Path.elements p).filter fun e => !(e.isEmpty || e == lit ".")

/-- What is at a place; at the top there is a directory. -/
def entry? (d : Disk) (place : List Text) : Option DiskEntry :=
  if place.isEmpty then some .directory else d.entries.lookup (placeKey place)

/-- Puts an entry at a place, instead of the one that was there. -/
def put (d : Disk) (place : List Text) (e : DiskEntry) : Disk :=
  ⟨(placeKey place, e) :: d.entries.filter (·.1 != placeKey place)⟩

theorem lookup_put_self (d : Disk) (place : List Text) (e : DiskEntry) :
    (d.put place e).entries.lookup (placeKey place) = some e := by
  simp [put]

theorem lookup_put_of_ne (d : Disk) {place : List Text} {key : Text} (e : DiskEntry)
    (h : key ≠ placeKey place) : (d.put place e).entries.lookup key = d.entries.lookup key := by
  have hf : ∀ l : List (Text × DiskEntry),
      (l.filter (·.1 != placeKey place)).lookup key = l.lookup key := by
    intro l
    induction l with
    | nil => rfl
    | cons x rest ih =>
      by_cases hx : x.1 = placeKey place
      · rw [List.filter_cons_of_neg (by simp [hx]), ih, List.lookup_cons, hx, beq_eq_false_iff_ne.mpr h]
      · rw [List.filter_cons_of_pos (by simp [hx]), List.lookup_cons, List.lookup_cons, ih]
  rw [put, List.lookup_cons, beq_eq_false_iff_ne.mpr h]
  exact hf d.entries

/-- The directories on the way to a place. -/
def ancestors (place : List Text) : List (List Text) :=
  (List.range place.length).tail.map fun n => place.take n

/-- The given files in a directory, which is there even if it is empty. -/
def ofFiles (directory : List Text) (files : List (Text × Text)) : Disk :=
  let places := files.map fun f => (directory ++ names f.1, f.2)
  let made := directory :: ancestors directory ++ places.flatMap fun f => ancestors f.1
  let withDirectories := made.foldl (fun d place => d.put place .directory) (⟨[]⟩ : Disk)
  places.foldl (fun d f => d.put f.1 (.file f.2)) withDirectories

/-! ### Following paths -/

/-- Goes on from a place by the elements of a path. All but the last one must be directories. -/
def follow (d : Disk) (place : List Text) : List Text → Except FileFlaw (List Text)
  | [] => .ok place
  | e :: rest =>
    match d.entry? place with
    | none => .error .noSuchFile
    | some (.file _) => .error .notDirectory
    | some .directory =>
      if e.isEmpty || e == lit "." then d.follow place rest
      else if e == lit ".." then d.follow place.dropLast rest
      else if nameLimit < e.length then .error .nameTooLong
      else d.follow (place ++ [e]) rest

/-- Where a path starts, as seen from a directory. -/
def start (directory : List Text) (p : Text) : List Text := if Path.isRooted p then [] else directory

/-- Why a text is not followed as a path, whatever is on the disk. -/
def pathFlaw? (p : Text) : Option FileFlaw :=
  if p.contains 0 then some .invalidArgument
  else if p.isEmpty then some .noSuchFile
  else if pathLimit < p.length then some .nameTooLong
  else none

/-- The contents of the file at a path. -/
def read (d : Disk) (directory : List Text) (p : Text) : Except FileFlaw Text :=
  match pathFlaw? p with
  | some flaw => .error flaw
  | none => do
    match d.entry? (← d.follow (start directory p) (Path.elements p)) with
    | none => throw .noSuchFile
    | some .directory => throw .isDirectory
    | some (.file contents) => return contents

/-- Where a file can be created or written over. A path that ends in a slash is taken to name a
directory, even if there is none. -/
def target (d : Disk) (directory : List Text) (p : Text) : Except FileFlaw (List Text) :=
  match pathFlaw? p with
  | some flaw => .error flaw
  | none => do
    let elements := Path.elements (Text.dropTrailing Path.slash p)
    let parent ← d.follow (start directory p) elements.dropLast
    let name := elements.getLast?.getD []
    match d.entry? parent with
    | none => throw .noSuchFile
    | some (.file _) => throw .notDirectory
    | some .directory =>
      if name.isEmpty || name == lit "." || name == lit ".." then throw .isDirectory
      else if p.getLast? == some Path.slash then throw .isDirectory
      else if nameLimit < name.length then throw .nameTooLong
      else if d.entry? (parent ++ [name]) = some .directory then throw .isDirectory
      else return parent ++ [name]

/-- Writes a file at a path. -/
def write (d : Disk) (directory : List Text) (p contents : Text) : Except FileFlaw Disk := do
  return d.put (← d.target directory p) (.file contents)

/-! ### Directories as source trees -/

/-- The files below a directory, by path from there. -/
def filesBelow (d : Disk) (directory : List Text) : List (Text × Text) :=
  let lead := if directory.isEmpty then [] else placeKey directory ++ [Path.slash]
  d.entries.filterMap fun
    | (key, .file contents) => if lead.isPrefixOf key then some (key.drop lead.length, contents) else none
    | (_, .directory) => none

/-- Why there is no file at a path. -/
def flawAt (d : Disk) (directory : List Text) (p : Text) : FileError :=
  match d.follow directory (Path.elements p) with
  | .error flaw => ⟨lit "open", p, flaw⟩
  | .ok place =>
    if d.entry? place = some .directory then ⟨lit "read", p, .isDirectory⟩
    else ⟨lit "open", p, .noSuchFile⟩

/-- Reads a file below a directory, which the path must not leave. With `lead` before it, the path
leads to the file from elsewhere. -/
def readBelow (d : Disk) (directory : List Text) (lead p : Text) : Except FileError Text :=
  if !Path.isLocal p || p.contains 0 then .error ⟨lit "readfile", p, .invalidArgument⟩
  else match pathFlaw? (lead ++ p) with
    | some flaw => .error ⟨lit "open", p, flaw⟩
    | none =>
      match (d.filesBelow directory).lookup p with
      | some contents => .ok contents
      | none => .error (d.flawAt directory p)

theorem mem_of_readBelow {d : Disk} {directory : List Text} {lead p t : Text}
    (h : d.readBelow directory lead p = .ok t) : p ∈ (d.filesBelow directory).map Prod.fst := by
  unfold readBelow at h
  split at h
  · cases h
  · split at h
    · cases h
    · split at h
      next hl => exact SourceTree.mem_of_lookup hl
      · cases h

/-- The files below a directory, to which `lead` leads. -/
def tree (d : Disk) (directory : List Text) (lead : Text) : SourceTree :=
  ⟨d.readBelow directory lead, (d.filesBelow directory).map Prod.fst, mem_of_readBelow⟩

/-- The files of `new` that `old` does not have in this form. -/
def changes (old new : Disk) : List (Text × Text) :=
  new.entries.filterMap fun
    | (key, .file contents) =>
      if old.entries.lookup key = some (.file contents) then none else some (key, contents)
    | (_, .directory) => none

end Disk
end AccAsm
