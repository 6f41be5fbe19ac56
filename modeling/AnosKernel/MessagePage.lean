import AnosKernel.Lib.Bytes

/-!
# The page of a message

A message is a page that its sender and its receiver share until the reply: what one of them writes
is what the other reads. Records in it are their bytes, numbers with the lowest byte first.
-/

namespace MessagePage

open Bytes

abbrev Byte := BitVec 8

instance lawful_byte : LawfulBEq Byte := instLawfulBEq

structure Page where
  bytes : List Byte
  full : bytes.length = 4096

/-- The bytes of a page of zeros. -/
theorem length_zeros : (List.replicate 4096 (0 : Byte)).length = 4096 := List.length_replicate

namespace Page

def write (page : Page) (offset : Nat) (piece : List Byte) (fits : offset + piece.length ≤ 4096) :
    Page where
  bytes := patch page.bytes offset piece
  full := by rw [length_patch (by rw [page.full]; exact fits), page.full]

def number (page : Page) (offset size : Nat) : Nat := ofBytes (slice offset size page.bytes)

section Numbers

variable {page : Page} {offset size value o n : Nat} {piece : List Byte}

theorem bytes_write (fits : offset + piece.length ≤ 4096) :
    (page.write offset piece fits).bytes = patch page.bytes offset piece := rfl

/-- A number that was written. -/
theorem number_write (fits : offset + (toBytes size value).length ≤ 4096)
    (small : value < 256 ^ size) :
    (page.write offset (toBytes size value) fits).number offset size = value := by
  rw [length_toBytes] at fits
  have hread := @slice_patch _ page.bytes (toBytes size value) offset (by rw [page.full]; omega)
  rw [length_toBytes] at hread
  rw [number, write, hread, ofBytes_toBytes small]

theorem number_write_before (fits : offset + piece.length ≤ 4096) (before : o + n ≤ offset) :
    (page.write offset piece fits).number o n = page.number o n := by
  rw [number, write, slice_patch_before before (by rw [page.full]; omega), number]

/-- The page from a piece on. -/
theorem drop_write (fits : offset + piece.length ≤ 4096) :
    (page.write offset piece fits).bytes.drop offset =
      piece ++ page.bytes.drop (offset + piece.length) := by
  rw [bytes_write, patch, List.append_assoc]
  apply List.drop_left'
  rw [List.length_take, page.full]
  omega

end Numbers

end Page

end MessagePage
