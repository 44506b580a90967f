import OsDev.Fat32.Descent

open os_dev.ata os_dev.libc little_endian forest link_chain fuel

namespace os_dev.fat32

variable {v : Volume} {d d' : Disk} {st : Fat32} {path : CStr}

theorem base_name_no_zero (h : 0 ∉ path) : 0 ∉ base_name path := by
  unfold base_name
  cases hsplit : split_last_slash path with
  | none => exact h
  | some pair =>
    obtain ⟨front, back⟩ := pair
    rw [(split_last_slash_some hsplit).1] at h
    exact fun hmem => h (by simp [hmem])

section open_file

variable {l : List ℕ} {mode : UInt8}

end open_file

end os_dev.fat32
