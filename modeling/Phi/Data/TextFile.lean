import Phi.Data.JsonValue
import Phi.Data.Lines

/-!
# Text files

The bytes of a text file are cut into lines at the newline byte. Decoding the bytes decodes each line by itself
(`decodeUtf8_unlines`), and a line of text comes back from its bytes.
-/

namespace Phi

theorem Utf8.run_eq_nil {q : Utf8.State} {bytes : List UInt8} (h : Utf8.run q bytes = []) :
    q = .start ∧ bytes = [] := by
  induction bytes generalizing q with
  | nil =>
    cases q with
    | start => exact ⟨rfl, rfl⟩
    | more owed bits low high => cases h
  | cons b rest ih =>
    rw [Utf8.run_cons, List.append_eq_nil_iff] at h
    -- a byte that completes no character leaves one owed
    have hstep : (Utf8.step q b.toNat).1 = [] → (Utf8.step q b.toNat).2 ≠ .start := by
      have hfirst : ∀ n, (Utf8.first n).1 = [] → (Utf8.first n).2 ≠ .start := by
        intro n
        unfold Utf8.first
        split_ifs <;> simp
      cases q with
      | start => exact hfirst _
      | more owed bits low high =>
        simp only [Utf8.step]
        split_ifs <;> simp
    exact absurd (ih h.2).1 (hstep h.1)

theorem decodeUtf8_eq_nil {bytes : List UInt8} : decodeUtf8 bytes = [] ↔ bytes = [] := by
  constructor
  · intro h
    have hrun : Utf8.run .start bytes = [] := by
      by_contra hne
      rcases List.exists_cons_of_ne_nil hne with ⟨c, cs, hcs⟩
      rw [decodeUtf8, hcs, List.flatMap_cons, List.append_eq_nil_iff] at h
      have hc := h.1
      unfold Text.utf16Of at hc
      split_ifs at hc
    exact (Utf8.run_eq_nil hrun).2
  · rintro rfl
    rfl

theorem decodeUtf8_unlines (ls : List (List UInt8)) (tail : List UInt8) :
    decodeUtf8 (unlines 10 ls ++ tail) = unlines 10 (ls.map decodeUtf8) ++ decodeUtf8 tail := by
  induction ls with
  | nil => rfl
  | cons l ls ih =>
    rw [unlines_cons, List.append_assoc, List.cons_append, decodeUtf8_newline, ih, List.map_cons, unlines_cons,
      List.append_assoc, List.cons_append]

theorem newline_not_mem_map {ls : List (List UInt8)} (h : ∀ l ∈ ls, (10 : UInt8) ∉ l) :
    ∀ l ∈ ls.map decodeUtf8, (10 : UInt16) ∉ l := by
  intro l hl
  rcases List.mem_map.mp hl with ⟨b, hb, rfl⟩
  exact newline_not_mem_decodeUtf8 (h b hb)

theorem newline_not_mem_map_textEncode {ls : List JsString} (hls : ∀ l ∈ ls, IsLine l) :
    ∀ l ∈ ls.map textEncode, (10 : UInt8) ∉ l := by
  intro l hl
  rcases List.mem_map.mp hl with ⟨s, hs, rfl⟩
  exact newline_not_mem_textEncode (hls s hs).paired (hls s hs).newline

theorem map_decodeUtf8_textEncode {ls : List JsString} (hls : ∀ l ∈ ls, IsLine l) :
    (ls.map textEncode).map decodeUtf8 = ls := by
  rw [List.map_map]
  exact (List.map_congr_left fun l hl => decodeUtf8_textEncode (hls l hl).paired).trans (List.map_id ls)

end Phi
