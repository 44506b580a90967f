import OsDev.Agent
import OsDev.Fat32.OpenedFile

open os_dev.libc os_dev.fat32 link_chain fuel

namespace os_dev.agent

variable {bytes text rest : List UInt8} {n : ℕ}

/-- `n` pieces of 512 bytes, each of them up to its first NUL. -/
def shown_pieces : ℕ → List UInt8 → CStr
  | 0, _ => []
  | n + 1, bytes => cstr (bytes.take 512) ++ shown_pieces n (bytes.drop 512)

/-- What a loop that shows a file in pieces prints of the content `bytes`. -/
def shown (bytes : List UInt8) : CStr := shown_pieces ((bytes.length + 511) / 512) bytes

/-- What it prints of the content from byte `n` of the first piece on. -/
def shown_from (n : ℕ) (bytes : List UInt8) : CStr := cstr ((bytes.take 512).drop n) ++ shown (bytes.drop 512)

theorem shown_nil : shown [] = [] := rfl

theorem shown_piece (bytes : List UInt8) : shown bytes = cstr (bytes.take 512) ++ shown (bytes.drop 512) := by
  by_cases hempty : bytes = []
  · rw [hempty]
    rfl
  · have hlen := List.length_pos_of_ne_nil hempty
    rw [shown, shown, List.length_drop, show (bytes.length + 511) / 512 = (bytes.length - 512 + 511) / 512 + 1 by omega]
    rfl

theorem shown_from_zero (bytes : List UInt8) : shown_from 0 bytes = shown bytes := by
  rw [shown_piece, shown_from, List.drop_zero]

theorem cstr_append (h : 0 ∉ text) (rest : List UInt8) : cstr (text ++ rest) = text ++ cstr rest := by
  refine List.takeWhile_append_of_pos fun c hc => decide_eq_true ?_
  rintro rfl
  exact h hc

/-- A text without NULs in front of the rest of an older content: the text and what is shown of the rest. -/
theorem shown_overwritten (h : 0 ∉ text) (hlen : text.length ≤ 512) (bytes : List UInt8) :
    shown (text ++ bytes.drop text.length) = text ++ shown_from text.length bytes := by
  have htake : (text ++ bytes.drop text.length).take 512 = text ++ (bytes.take 512).drop text.length := by
    rw [List.take_append, List.take_of_length_le hlen, List.drop_take]
  have hdrop : (text ++ bytes.drop text.length).drop 512 = bytes.drop 512 := by
    rw [List.drop_append, List.drop_eq_nil_of_le hlen, List.nil_append, List.drop_drop, Nat.add_sub_cancel' hlen]
  rw [shown_piece, htake, hdrop, cstr_append h, List.append_assoc, shown_from]

theorem cstr_zero (n : ℕ) : cstr (List.replicate n 0) = [] := by
  cases n with
  | zero => rfl
  | succ n => rfl

theorem cstr_append_zeros (bytes : List UInt8) (m : ℕ) : cstr (bytes ++ List.replicate m 0) = cstr bytes := by
  induction bytes with
  | nil => exact cstr_zero m
  | cons c bytes ih =>
    simp only [cstr] at ih ⊢
    rw [List.cons_append, List.takeWhile_cons, List.takeWhile_cons, ih]

theorem shown_zeros (n : ℕ) : shown (List.replicate n 0) = [] := by
  have hpieces : ∀ k n, shown_pieces k (List.replicate n 0) = [] := by
    intro k
    induction k with
    | zero => exact fun _ => rfl
    | succ k ih =>
      intro n
      rw [shown_pieces, List.take_replicate, List.drop_replicate, cstr_zero, ih, List.nil_append]
  exact hpieces _ n

/-- Nothing is shown of cleared bytes at the end. -/
theorem shown_append_zeros (bytes : List UInt8) (m : ℕ) : shown (bytes ++ List.replicate m 0) = shown bytes := by
  induction hlen : bytes.length using Nat.strong_induction_on generalizing bytes m with
  | _ n ih =>
    by_cases hempty : bytes = []
    · rw [hempty, List.nil_append, shown_zeros, shown_nil]
    · have hpos := List.length_pos_of_ne_nil hempty
      rw [shown_piece, shown_piece bytes, List.take_append, List.take_replicate, cstr_append_zeros, List.drop_append,
        List.drop_replicate, ih _ (by rw [List.length_drop]; omega) (bytes.drop 512) _ rfl]

theorem shown_from_append_zeros (n : ℕ) (bytes : List UInt8) (m : ℕ) :
    shown_from n (bytes ++ List.replicate m 0) = shown_from n bytes := by
  rw [shown_from, shown_from, List.take_append, List.take_replicate, List.drop_append, List.drop_replicate, cstr_append_zeros,
    List.drop_append, List.drop_replicate, shown_append_zeros]

/-- Nothing is shown of cleared clusters. -/
theorem shown_from_zeros (n m : ℕ) : shown_from m (List.replicate n 0) = [] := by
  rw [shown_from, List.take_replicate, List.drop_replicate, List.drop_replicate, cstr_zero, shown_zeros, List.nil_append]

/-- Only what stands from there on counts. -/
theorem shown_from_congr {bytes' : List UInt8} (hn : n ≤ 512) (h : bytes.drop n = bytes'.drop n) :
    shown_from n bytes = shown_from n bytes' := by
  have hdrop : ∀ l : List UInt8, l.drop 512 = (l.drop n).drop (512 - n) := by
    intro l
    rw [List.drop_drop, Nat.add_sub_cancel' hn]
  rw [shown_from, shown_from, List.drop_take, List.drop_take, hdrop bytes, hdrop bytes', h]

/-- What the loop prints of the content from byte `n` on, in whichever piece that is. -/
def shown_behind (n : ℕ) (bytes : List UInt8) : CStr := shown_from (n % 512) (bytes.drop (n / 512 * 512))

theorem shown_behind_append_zeros (n : ℕ) (bytes : List UInt8) (m : ℕ) :
    shown_behind n (bytes ++ List.replicate m 0) = shown_behind n bytes := by
  rw [shown_behind, shown_behind, List.drop_append, List.drop_replicate, shown_from_append_zeros]

/-- A text of any length in front of the rest of an older content. -/
theorem shown_rewritten (h : 0 ∉ text) (bytes : List UInt8) :
    shown (text ++ bytes.drop text.length) = text ++ shown_behind text.length bytes := by
  induction hlen : text.length using Nat.strong_induction_on generalizing text bytes with
  | _ n ih =>
    subst hlen
    by_cases hshort : text.length < 512
    · rw [shown_overwritten h hshort.le, shown_behind, Nat.mod_eq_of_lt hshort, Nat.div_eq_of_lt hshort, Nat.zero_mul, List.drop_zero]
    · -- the first piece is part of the text
      have hrest : (text.drop 512).length = text.length - 512 := List.length_drop
      have htake : (text ++ bytes.drop text.length).take 512 = text.take 512 := List.take_append_of_le_length (by omega)
      have hdrop : (text ++ bytes.drop text.length).drop 512 = text.drop 512 ++ (bytes.drop 512).drop (text.drop 512).length := by
        rw [List.drop_append_of_le_length (by omega), List.drop_drop, hrest, show 512 + (text.length - 512) = text.length by omega]
      have hpiece : cstr (text.take 512) = text.take 512 := by
        have hnul := cstr_append (fun hmem => h (List.mem_of_mem_take hmem) : 0 ∉ text.take 512) []
        rwa [List.append_nil, show cstr [] = [] from rfl, List.append_nil] at hnul
      have hsame : shown_behind (text.drop 512).length (bytes.drop 512) = shown_behind text.length bytes := by
        rw [shown_behind, shown_behind, List.drop_drop, hrest, show (text.length - 512) % 512 = text.length % 512 by omega,
          show 512 + (text.length - 512) / 512 * 512 = text.length / 512 * 512 by omega]
      have hbehind := @ih (text.drop 512).length (by omega) (text.drop 512) (fun hmem => h (List.mem_of_mem_drop hmem)) (bytes.drop 512) rfl
      rw [shown_piece, htake, hdrop, hpiece, hbehind, hsame, ← List.append_assoc, List.take_append_drop]

variable {st : Fat32} {screen : CStr} {calls : List Call} {fd : Int} {i : Fin 8} {c pos : ℕ} {l : List ℕ}

/-- The loop shows what is left of the file from the place of the handle on. -/
theorem print_file_returns (hfd : handle st fd = some i) (hpos : 0 < st.vol.bpb.sectors_per_cluster)
    (hbyte : st.vol.bpb.sectors_per_cluster < 256) (hl : FileChain st.vol st.disk c l)
    (hto : ReadTo st.vol l (st.open_files i).file_size pos) (hplace : AtPlace st.vol l (st.open_files i) pos) :
    ∃ file, Returns (fun fuel => print_file fuel ⟨st, screen, calls⟩ fd)
      ⟨{ st with open_files := Function.update st.open_files i file },
        screen ++ shown ((delivered st.vol st.disk l (st.open_files i).file_size).drop pos), calls⟩ := by
  generalize hleft : reach st.vol l (st.open_files i).file_size - pos = left
  induction left using Nat.strong_induction_on generalizing st screen pos with
  | _ left ih =>
    obtain ⟨file, hplace', hsize, hvalid, hread⟩ := hto.read_eq hfd rfl hpos hbyte hl rfl hplace
    have hnext := hto.next
    rw [hleft] at hread hplace' hnext
    generalize hbytes : (delivered st.vol st.disk l (st.open_files i).file_size).drop pos = bytes at hread ⊢
    have hlen : bytes.length = left := by
      rw [← hbytes, List.length_drop, delivered_length, hleft]
    by_cases hend : left = 0
    · subst hend
      obtain rfl := List.length_eq_zero_iff.mp hlen
      refine ⟨file, .of_gt 0 fun fuel hfuel => ?_⟩
      obtain ⟨fuel, rfl⟩ := Nat.exists_eq_succ_of_ne_zero hfuel.ne'
      simp [print_file, hread, shown_nil, int32]
    · -- the next piece is shown, and then what is behind it
      have hmore : 0 < int32 (min 512 left) := by
        unfold int32
        omega
      have hself : Function.update st.open_files i file i = file := Function.update_self _ _ _
      have hstep : ∀ fuel, print_file (fuel + 1) ⟨st, screen, calls⟩ fd = print_file fuel
          ⟨{ st with open_files := Function.update st.open_files i file }, screen ++ cstr (bytes.take 512), calls⟩ fd := by
        intro fuel
        simp [print_file, hread, hmore, Os.print_string]
      have hrest := @ih (left - min 512 left) (by omega) _ (screen ++ cstr (bytes.take 512)) (pos + min 512 left)
        (handle_update hfd file hvalid st.disk) hpos hbyte hl
      simp only [hself, hsize] at hrest
      obtain ⟨file', hrest⟩ := hrest hnext hplace' (by omega)
      refine ⟨file', .of_succ ?_ hstep⟩
      rw [Function.update_idem, ← List.drop_drop, hbytes] at hrest
      have hshown : shown bytes = cstr (bytes.take 512) ++ shown (bytes.drop (min 512 left)) := by
        have hdrop : bytes.drop (min 512 left) = bytes.drop 512 := by
          rw [← hlen, ← List.drop_eq_drop_min]
        rw [hdrop, ← shown_piece]
      rw [hshown, ← List.append_assoc]
      exact hrest

/-- The whole file is shown through a handle that has just been opened. -/
theorem print_opened_returns (hv : st.vol.Sane) (hl : Cells st.vol st.disk c l) (screen path : CStr) (calls : List Call) (i : Fin 8)
    (k s : ℕ) : ∃ file, Returns (fun fuel => print_file fuel ⟨with_opened st path c i k s, screen, calls⟩ (i.val : Int))
      ⟨{ st with open_files := Function.update st.open_files i file },
        screen ++ shown (delivered st.vol st.disk l (slot st.vol st.disk k s).file_size), calls⟩ := by
  obtain ⟨hto, hplace⟩ := @with_opened_readTo st path l c k i hl s
  have hsize : ((with_opened st path c i k s).open_files i).file_size = (slot st.vol st.disk k s).file_size := by
    rw [with_opened_self]
    rfl
  rw [← hsize] at hto
  obtain ⟨file, hprint⟩ := @print_file_returns (with_opened st path c i k s) screen calls _ i c 0 l
    (with_opened_handle s) hv.cluster_pos hv.cluster_byte (hl.fileChain hv) hto hplace
  rw [hsize, List.drop_zero] at hprint
  refine ⟨file, ?_⟩
  simpa only [with_opened, Function.update_idem] using hprint

end os_dev.agent
