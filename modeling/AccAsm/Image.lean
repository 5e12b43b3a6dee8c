import AccAsm.Text.Numeral

/-! # Images

The finished output: bytes, the labels some of them carry, and the address of every label. -/

namespace AccAsm
open Text (lit)

/-- Addresses of distinct labels, in the order of declaration. -/
structure LabelTable where
  entries : List (Text × UInt16)
  nodup : (entries.map Prod.fst).Nodup
deriving DecidableEq, Repr

namespace LabelTable

def empty : LabelTable := ⟨[], by simp⟩

instance : Inhabited LabelTable := ⟨empty⟩

/-- The address of a label. -/
def find? (t : LabelTable) (label : Text) : Option UInt16 := t.entries.lookup label

/-- Gives a label its address, unless it already has one. -/
def add (t : LabelTable) (label : Text) (address : UInt16) : LabelTable :=
  if h : label ∈ t.entries.map Prod.fst then t
  else {
    entries := t.entries ++ [(label, address)]
    nodup := by
      rw [List.map_append, List.nodup_append]
      exact ⟨t.nodup, by simp, fun a ha b hb hab => h (by
        rw [List.map_singleton, List.mem_singleton] at hb
        have : a = label := hab.trans hb
        exact this ▸ ha)⟩ }

theorem find?_isSome_iff {t : LabelTable} {label : Text} :
    (t.find? label).isSome ↔ label ∈ t.entries.map Prod.fst := by
  rw [find?]
  induction t.entries with
  | nil => simp
  | cons e rest ih =>
    rw [List.lookup_cons, List.map_cons, List.mem_cons]
    split
    next h => simp [eq_of_beq h]
    next h => rw [ih, or_iff_right (ne_of_beq_false h)]

/-- The first address of a label stands. -/
theorem find?_add (t : LabelTable) (label other : Text) (address : UInt16) :
    (t.add label address).find? other =
      (t.find? other).or (if other = label then some address else none) := by
  unfold add
  split
  next h =>
    by_cases ho : other = label
    · obtain ⟨a, ha⟩ := Option.isSome_iff_exists.mp (find?_isSome_iff.mpr (ho ▸ h))
      rw [ha, Option.some_or]
    · rw [if_neg ho, Option.or_none]
  next h =>
    rw [find?, List.lookup_append, ← find?, List.lookup_cons]
    by_cases ho : other = label
    · rw [if_pos ho, beq_iff_eq.mpr ho]
    · rw [if_neg ho, beq_eq_false_iff_ne.mpr ho, List.lookup_nil]

/-- The table of the given addresses; the first one of a label counts. -/
def ofList (entries : List (Text × UInt16)) : LabelTable :=
  entries.foldl (fun t e => t.add e.1 e.2) empty

/-- The entries in byte order of the labels. -/
def sorted (t : LabelTable) : List (Text × UInt16) :=
  t.entries.mergeSort fun a b => Text.le a.1 b.1

def size (t : LabelTable) : Nat := t.entries.length

end LabelTable

structure ImageByte where
  value : UInt8 := 0
  /-- The label at this address, empty for none. -/
  label : Text := []
deriving DecidableEq, Repr

structure Image where
  bytes : List ImageByte := []
  labels : LabelTable := .empty
deriving DecidableEq, Repr

/-- An image has `size` bytes, which is more than `limit`. -/
structure Oversized where
  limit : Int
  size : Nat
deriving DecidableEq, Repr

def Oversized.message (e : Oversized) : Text :=
  lit "Image exceeds allowed size\n\twant:" ++ Numeral.signedDecimal e.limit ++ lit "\n\thave:" ++
    Numeral.decimal e.size

namespace Image

/-- The bare bytes. -/
def raw (img : Image) : Text := img.bytes.map ImageByte.value

/-- Fills the image with zeros up to the given number of 16-bit words. Gives the image as it is afterwards, and
the reason if the request is refused. The size in bytes is computed in 64 bits. -/
def padInPlace (img : Image) (words : Int64) : Image × Option Oversized :=
  let size := (words * 2).toInt
  if size < img.bytes.length then (img, some ⟨size, img.bytes.length⟩)
  else ({ img with bytes := img.bytes ++ List.replicate (size.toNat - img.bytes.length) {} }, none)

/-- The image after padding, unless that is refused. -/
def pad (img : Image) (words : Int64) : Except Oversized Image :=
  match img.padInPlace words with
  | (padded, none) => .ok padded
  | (_, some e) => .error e

end Image
end AccAsm
