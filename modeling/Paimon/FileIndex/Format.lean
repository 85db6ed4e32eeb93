import Paimon.Lib.Decode
import Paimon.BTree.KeySerde

/-!
# The bytes of file indexes

What the index formats under `file_index` have in common: errors, big-endian numbers and roaring
bitmaps.  The roaring crate is not part of the repository; `RoaringFormat` says what is used of it: a bitmap
is a set of rows, and reading what was written gives the set back.
-/

namespace Paimon.FileIndex

open Decode

inductive IndexError where
  | formatInvalid (message : String)
  | unsupported (message : String)
  | dataInvalid (message : String)
  | configInvalid (message : String)
deriving DecidableEq, Repr

abbrev Decoder := Decode.Decoder UInt8 IndexError

/-! ## numbers -/

/-- `put_i8`, `put_i16`, `put_i32`, `put_i64`: big-endian two's complement -/
def putInt (width : Nat) (v : Int) : Bytes := (intLeBytes width v).reverse

def beSigned (bytes : Bytes) : Int := toSigned (8 * bytes.length) (leNat bytes.reverse)

theorem putInt_length (width : Nat) (v : Int) : (putInt width v).length = width := by
  rw [putInt, List.length_reverse, intLeBytes_length]

theorem beSigned_putInt {width : Nat} (hw : 0 < width) {v : Int} (h : BTree.FitsBytes width v) :
    beSigned (putInt width v) = v := by
  rw [beSigned, putInt_length, putInt, List.reverse_reverse]
  exact BTree.toSigned_intLeBytes hw h

/-- a signed number of `width` bytes; the error may tell how many bytes are left -/
def readInt (width : Nat) (e : Nat → IndexError) : Decoder Int := beSigned <$> take width e

theorem reads_int {width : Nat} (hw : 0 < width) {v : Int} (h : BTree.FitsBytes width v)
    (e : Nat → IndexError) : Reads (readInt width e) (putInt width v) v := by
  have hread := (reads_take (putInt_length width v) e).map beSigned
  rwa [beSigned_putInt hw h] at hread

/-! ## bitmaps -/

structure RoaringFormat where
  serialize : Finset Nat → Bytes
  deserialize : Decode.Decoder UInt8 String (Finset Nat)
  reads : ∀ bitmap : Finset Nat, (∀ row ∈ bitmap, row < 2 ^ 32) → Reads deserialize (serialize bitmap) bitmap

/-- the number of rows, then the rows in ascending order, four bytes each -/
def plainSerialize (bitmap : Finset Nat) : Bytes :=
  leBytes 8 bitmap.card ++ (bitmap.sort (· ≤ ·)).flatMap (leBytes 4)

def plainDeserialize : Decode.Decoder UInt8 String (Finset Nat) :=
  take 8 (fun _ => "truncated") >>= fun count =>
    List.toFinset <$> many (fun _ => leNat <$> take 4 fun _ => "truncated") 0 (leNat count)

theorem reads_plain (bitmap : Finset Nat) (hrows : ∀ row ∈ bitmap, row < 2 ^ 32) :
    Reads plainDeserialize (plainSerialize bitmap) bitmap := by
  have hcard : bitmap.card < 256 ^ 8 := by
    have hsub : bitmap ⊆ Finset.range (2 ^ 32) := fun row hrow => Finset.mem_range.mpr (hrows row hrow)
    have hle := Finset.card_le_card hsub
    rw [Finset.card_range] at hle
    exact hle.trans_lt (by norm_num)
  refine (reads_take (leBytes_length 8 _) _).bind ?_
  rw [leNat_leBytes hcard, ← Finset.length_sort (· ≤ ·)]
  have hmany : Reads (many (fun _ => leNat <$> take 4 fun _ => "truncated") 0 (bitmap.sort (· ≤ ·)).length :
      Decode.Decoder UInt8 String (List Nat)) ((bitmap.sort (· ≤ ·)).flatMap (leBytes 4))
      (bitmap.sort (· ≤ ·)) := by
    refine reads_many (fun _ row hrow => ?_) 0
    have hlt : row < 256 ^ 4 := (hrows row ((Finset.mem_sort _).mp hrow)).trans_le (by norm_num)
    have hread : Reads (leNat <$> take 4 fun _ => "truncated" : Decode.Decoder UInt8 String Nat)
        (leBytes 4 row) (leNat (leBytes 4 row)) := (reads_take (leBytes_length 4 row) _).map leNat
    rwa [leNat_leBytes hlt] at hread
  have hset := hmany.map List.toFinset
  rwa [Finset.sort_toFinset] at hset

/-- a format that reads back what it wrote -/
def plainFormat : RoaringFormat := ⟨plainSerialize, plainDeserialize, reads_plain⟩

end Paimon.FileIndex
