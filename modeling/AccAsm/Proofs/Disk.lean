import AccAsm.Disk
import AccAsm.Proofs.Traversal
import Mathlib.Data.List.Induction

/-! # Writing files

A file that is put at a place which is no directory leaves every directory a directory, so that paths go on
leading where they led (`target_putAll`), and changes nothing but what is at that place: neither what is
looked up by key (`lookup_putAll_of_notMem`) nor what is read below a directory (`toOption_readBelow_putAll`). -/

namespace AccAsm
open Text (lit)
namespace Disk
variable {d : Disk} {place q : List Text} {contents : Text}

/-- The file at the place of each write, one write after the other. -/
def putAll (d : Disk) (writes : List (List Text × Text)) : Disk :=
  writes.foldl (fun d w => d.put w.1 (.file w.2)) d

/-! ### Following paths -/

theorem entry?_eq_lookup (h : place ≠ []) : d.entry? place = d.entries.lookup (placeKey place) := by
  rw [ entry?, if_neg (by simpa using h)]

theorem entry?_put_directory (hd : d.entries.lookup (placeKey place) ≠ some .directory)
    (h : d.entry? q = some .directory) : Disk.entry? (d.put place (.file contents)) q = some .directory := by
  by_cases hq : q = []
  · rw [hq]
    rfl
  · rw [entry?_eq_lookup hq] at h ⊢
    rw [lookup_put_of_ne, h]
    intro hkey
    exact hd (hkey ▸ h)

theorem follow_put {es : List Text} {r : List Text} (hd : d.entries.lookup (placeKey place) ≠ some .directory)
    (h : d.follow q es = .ok r) : (d.put place (.file contents)).follow q es = .ok r := by
  fun_induction follow d q es with
  | case1 => exact h
  | case2 => cases h
  | case3 => cases h
  | case4 q e rest he hdot ih =>
    rw [follow, entry?_put_directory hd he]
    simp only [hdot, if_true]
    exact ih h
  | case5 q e rest he hdot hup ih =>
    rw [follow, entry?_put_directory hd he]
    simp only [hdot, hup, if_true]
    exact ih h
  | case6 => cases h
  | case7 q e rest he hdot hup hlen ih =>
    rw [follow, entry?_put_directory hd he]
    simp only [hdot, hup, hlen, if_false]
    exact ih h

/-- Where a path leads that a file can be written to. -/
theorem target_eq_ok {directory : List Text} {p : Text} :
    d.target directory p = .ok place ↔
      pathFlaw? p = none ∧ ∃ parent name, place = parent ++ [name] ∧
        (Path.elements (Text.dropTrailing Path.slash p)).getLast?.getD [] = name ∧
        d.follow (start directory p) (Path.elements (Text.dropTrailing Path.slash p)).dropLast = .ok parent ∧
        d.entry? parent = some .directory ∧
        (name.isEmpty || name == lit "." || name == lit "..") = false ∧ (p.getLast? == some Path.slash) = false ∧
        name.length ≤ nameLimit ∧ d.entry? place ≠ some .directory := by
  unfold target
  cases hflaw : pathFlaw? p with
  | some flaw => simp
  | none =>
    simp only [true_and]
    rw [except_bind_eq_ok]
    constructor
    · rintro ⟨parent, hparent, h⟩
      split at h
      · cases h
      · cases h
      next hdir =>
        split at h
        · cases h
        next hname =>
          split at h
          · cases h
          next hslash =>
            split at h
            · cases h
            next hlen =>
              split at h
              · cases h
              next hentry =>
                cases h
                exact ⟨parent, _, rfl, rfl, hparent, hdir, by simpa using hname, by simpa using hslash,
                  Nat.le_of_not_lt hlen, hentry⟩
    · rintro ⟨parent, name, rfl, rfl, hparent, hdir, hname, hslash, hlen, hentry⟩
      refine ⟨parent, hparent, ?_⟩
      rw [hdir]
      simp only [hname, hslash, Bool.false_eq_true, if_false]
      rw [if_neg (Nat.not_lt.mpr hlen), if_neg hentry]
      rfl

theorem lookup_of_target {directory : List Text} {p : Text} (h : d.target directory p = .ok place) :
    d.entries.lookup (placeKey place) ≠ some .directory := by
  obtain ⟨-, parent, name, rfl, -, -, -, -, -, -, hentry⟩ := target_eq_ok.mp h
  rwa [entry?_eq_lookup (by simp)] at hentry

theorem target_put {directory : List Text} {p : Text} (hd : d.entries.lookup (placeKey place) ≠ some .directory)
    (h : d.target directory p = .ok q) : (d.put place (.file contents)).target directory p = .ok q := by
  obtain ⟨hflaw, parent, name, hq, hname, hfollow, hparent, hplain, hslash, hlen, hentry⟩ := target_eq_ok.mp h
  refine target_eq_ok.mpr ⟨hflaw, parent, name, hq, hname, follow_put hd hfollow, entry?_put_directory hd hparent,
    hplain, hslash, hlen, ?_⟩
  have hne : q ≠ [] := by simp [hq]
  rw [entry?_eq_lookup hne] at hentry ⊢
  by_cases hkey : placeKey q = placeKey place
  · rw [hkey, lookup_put_self]
    simp
  · rwa [lookup_put_of_ne _ _ hkey]

/-- Paths lead where they led, whatever files have been written. -/
theorem target_putAll {writes : List (List Text × Text)} {directory : List Text} {p : Text}
    (hd : ∀ w ∈ writes, d.entries.lookup (placeKey w.1) ≠ some .directory)
    (h : d.target directory p = .ok q) : (d.putAll writes).target directory p = .ok q := by
  induction writes generalizing d with
  | nil => exact h
  | cons w writes ih =>
    obtain ⟨hw, hrest⟩ := List.forall_mem_cons.mp hd
    refine ih (fun w' hw' => ?_) (target_put hw h)
    by_cases hkey : placeKey w'.1 = placeKey w.1
    · rw [hkey, lookup_put_self]
      simp
    · rw [lookup_put_of_ne _ _ hkey]
      exact hrest w' hw'

/-! ### Looking files up -/

theorem lookup_putAll_of_notMem {writes : List (List Text × Text)} {key : Text}
    (h : ∀ w ∈ writes, placeKey w.1 ≠ key) : (d.putAll writes).entries.lookup key = d.entries.lookup key := by
  induction writes generalizing d with
  | nil => rfl
  | cons w writes ih =>
    obtain ⟨hw, hrest⟩ := List.forall_mem_cons.mp h
    exact (ih hrest).trans (lookup_put_of_ne d _ (Ne.symm hw))

theorem putAll_concat (writes : List (List Text × Text)) (w : List Text × Text) :
    d.putAll (writes ++ [w]) = (d.putAll writes).put w.1 (.file w.2) := by
  rw [putAll, List.foldl_append]
  rfl

/-- A file that is only ever written one way holds what was written. -/
theorem lookup_putAll_of_mem {writes : List (List Text × Text)} {w : List Text × Text} (hw : w ∈ writes)
    (h : ∀ w' ∈ writes, placeKey w'.1 = placeKey w.1 → w'.2 = w.2) :
    (d.putAll writes).entries.lookup (placeKey w.1) = some (.file w.2) := by
  induction writes using List.reverseRecOn with
  | nil => cases hw
  | append_singleton writes last ih =>
    rw [putAll_concat]
    by_cases hkey : placeKey last.1 = placeKey w.1
    · rw [← hkey, lookup_put_self, h last (by simp) hkey]
    · rw [lookup_put_of_ne _ _ (Ne.symm hkey)]
      have hmem : w ∈ writes := by
        rcases List.mem_append.mp hw with hw | hw
        · exact hw
        · exact absurd (congrArg (placeKey ·.1) (List.mem_singleton.mp hw).symm) hkey
      exact ih hmem fun w' hw' => h w' (List.mem_append_left _ hw')

/-! ### Reading below a directory -/

/-- What the keys of the files below a directory start with. -/
def lead (directory : List Text) : Text :=
  if directory.isEmpty then [] else placeKey directory ++ [Path.slash]

/-- The path of an entry from a directory, if the entry is a file below it. -/
def below? (directory : List Text) : Text × DiskEntry → Option (Text × Text)
  | (key, .file contents) =>
    if (lead directory).isPrefixOf key then some (key.drop (lead directory).length, contents) else none
  | (_, .directory) => none

theorem filesBelow_eq (d : Disk) (directory : List Text) :
    d.filesBelow directory = d.entries.filterMap (below? directory) := rfl

theorem eq_of_below? {directory : List Text} {x : Text × DiskEntry} {p t : Text}
    (h : below? directory x = some (p, t)) : x.1 = lead directory ++ p := by
  obtain ⟨key, entry⟩ := x
  cases entry with
  | directory => cases h
  | file contents =>
    rw [below?] at h
    split at h
    next hp =>
      cases h
      obtain ⟨rest, rfl⟩ := List.isPrefixOf_iff_prefix.mp hp
      rw [List.drop_left]
    next => cases h

theorem lookup_filesBelow_put {directory : List Text} {p : Text} {e : DiskEntry}
    (h : lead directory ++ p ≠ placeKey place) :
    ((d.put place e).filesBelow directory).lookup p = (d.filesBelow directory).lookup p := by
  -- the entries with the key of the place are not looked at for the path
  have hskip {x : Text × DiskEntry} (hx : x.1 = placeKey place) (rest : List (Text × DiskEntry)) :
      ((x :: rest).filterMap (below? directory)).lookup p = (rest.filterMap (below? directory)).lookup p := by
    rw [List.filterMap_cons]
    cases hb : below? directory x with
    | none => rfl
    | some y =>
      rw [List.lookup_cons, beq_eq_false_iff_ne.mpr]
      rintro rfl
      exact h ((eq_of_below? hb).symm.trans hx)
  have hfilter (l : List (Text × DiskEntry)) :
      ((l.filter (·.1 != placeKey place)).filterMap (below? directory)).lookup p =
        (l.filterMap (below? directory)).lookup p := by
    induction l with
    | nil => rfl
    | cons x rest ih =>
      by_cases hx : x.1 = placeKey place
      · rw [List.filter_cons_of_neg (by simp [hx]), hskip hx, ih]
      · rw [List.filter_cons_of_pos (by simp [hx]), List.filterMap_cons, List.filterMap_cons]
        cases below? directory x with
        | none => exact ih
        | some y => rw [List.lookup_cons, List.lookup_cons, ih]
  rw [filesBelow_eq, filesBelow_eq, put, hskip rfl, hfilter]

theorem lookup_filesBelow_putAll {directory : List Text} {p : Text} {writes : List (List Text × Text)}
    (h : ∀ w ∈ writes, lead directory ++ p ≠ placeKey w.1) :
    ((d.putAll writes).filesBelow directory).lookup p = (d.filesBelow directory).lookup p := by
  induction writes generalizing d with
  | nil => rfl
  | cons w writes ih =>
    obtain ⟨hw, hrest⟩ := List.forall_mem_cons.mp h
    exact (ih hrest).trans (lookup_filesBelow_put hw)

/-- What can be read at a path stays the same if nothing is written there. -/
theorem toOption_readBelow_putAll {directory : List Text} {p : Text} {writes : List (List Text × Text)}
    (h : ∀ w ∈ writes, lead directory ++ p ≠ placeKey w.1) (leading : Text) :
    ((d.putAll writes).readBelow directory leading p).toOption = (d.readBelow directory leading p).toOption := by
  unfold readBelow
  rw [lookup_filesBelow_putAll h]
  split
  · rfl
  · split
    · rfl
    · cases (d.filesBelow directory).lookup p <;> rfl

end Disk
end AccAsm
