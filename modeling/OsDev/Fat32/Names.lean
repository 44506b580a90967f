import OsDev.Fat32.Types

open os_dev.ata os_dev.libc

namespace os_dev.fat32

/-- The case folding of `standardize_name`, on bytes. -/
def to_upper (c : UInt8) : UInt8 := if 0x61 ≤ c ∧ c ≤ 0x7A then c - 32 else c

/-- Fill up with spaces to the width of the field. -/
def pad (width : ℕ) (chars : List UInt8) : List UInt8 :=
  chars ++ List.replicate (width - chars.length) space

/-- `dest_name`: at most eight characters in front of the first dot. -/
def standardize_base (src : CStr) : List UInt8 :=
  pad 8 (((src.takeWhile (· ≠ dot)).take 8).map to_upper)

/-- `dest_ext`: at most three characters behind the first dot. -/
def standardize_ext (src : CStr) : List UInt8 :=
  pad 3 ((((src.dropWhile (· ≠ dot)).drop 1).take 3).map to_upper)

/-- The 8.3 fields of a name, as every search compares them. -/
def standardize_name (src : CStr) : List UInt8 × List UInt8 :=
  (standardize_base src, standardize_ext src)

/-- Readable form of an 8.3 name. -/
def format_name (fat_name fat_ext : List UInt8) : CStr :=
  fat_name.filter (· ≠ space) ++
    if fat_ext.headD 0 ≠ space then dot :: fat_ext.filter (· ≠ space) else []

end os_dev.fat32
