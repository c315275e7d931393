import Phi.Data.Text

/-!
# Texts that are written out

The code units of a literal are those of its characters. To decide a question about long literals, their characters
are spelled first: taking a literal apart costs the square of its length.
-/

namespace Phi

def asciiUnits (l : List Char) : JsString := l.map fun c => UInt16.ofNat c.toNat

theorem ofAscii_ofList (l : List Char) : JsString.ofAscii (String.ofList l) = asciiUnits l := by
  rw [JsString.ofAscii, String.toList_ofList, asciiUnits]

/-- The characters of some literals. -/
inductive Spelled : List String → List (List Char) → Prop
  | nil : Spelled [] []
  | cons {l : List Char} {texts : List String} {ls : List (List Char)} (h : Spelled texts ls) :
    Spelled (String.ofList l :: texts) (l :: ls)

theorem Spelled.map_ofAscii {texts : List String} {ls : List (List Char)} (h : Spelled texts ls) :
    texts.map JsString.ofAscii = ls.map asciiUnits := by
  induction h with
  | nil => rfl
  | cons h ih => rw [List.map_cons, List.map_cons, ih, ofAscii_ofList]

theorem Spelled.forall_ofAscii {texts : List String} {ls : List (List Char)} {p : JsString → Prop}
    (h : Spelled texts ls) (hls : ∀ l ∈ ls, p (asciiUnits l)) : ∀ text ∈ texts.map JsString.ofAscii, p text := by
  rw [h.map_ofAscii]
  intro text htext
  obtain ⟨l, hl, rfl⟩ := List.mem_map.mp htext
  exact hls l hl

end Phi
