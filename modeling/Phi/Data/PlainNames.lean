import Phi.Data.JsonValue

/-!
# Objects with plain names

A name that is no array index is enumerated where it was put. An object whose names are plain and distinct is read back
from its text when the values of its members are.
-/

namespace Phi

/-- A name that is no array index, so that it is enumerated where it was put. -/
def PlainName (k : JsString) : Prop := JsObject.arrayIndex? k = none

instance (k : JsString) : Decidable (PlainName k) := inferInstanceAs (Decidable (_ = none))

/-- The name starts with a character after the digits. -/
def startsAfterDigits (k : JsString) : Bool := k.head?.any fun u => 57 < u.toNat

theorem plainNames {ks : List JsString} (h : ks.all startsAfterDigits = true) : ∀ k ∈ ks, PlainName k := by
  intro k hk
  have hstart := List.all_eq_true.mp h k hk
  cases k with
  | nil => cases hstart
  | cons u k =>
    have hu : 57 < u.toNat := by simpa [startsAfterDigits] using hstart
    have hnumeral : JsObject.numeral? (u :: k) = none := by
      rw [JsObject.numeral?, if_neg]
      rintro ⟨-, hall, -⟩
      have := hall u (List.mem_cons_self ..)
      omega
    rw [PlainName, JsObject.arrayIndex?, hnumeral]
    rfl

theorem pairwise_keyBefore {ks : List JsString} (hn : ks.Nodup) (hp : ∀ k ∈ ks, PlainName k) :
    ks.Pairwise JsObject.KeyBefore := by
  refine List.Pairwise.imp_of_mem ?_ hn
  intro a b _ hb hne
  refine ⟨hne, ?_⟩
  intro j hj
  rw [hp b hb] at hj
  cases hj

/-- An object whose names are among distinct ones, in their order, none of them an array index. -/
theorem enumerated_object {es : Table JsString Json} (names : List JsString) (hsub : es.keys.Sublist names)
    (hn : names.Nodup) (hp : ∀ k ∈ names, PlainName k) (hv : ∀ m ∈ es, m.2.Enumerated) :
    (Json.object es).Enumerated :=
  .object (pairwise_keyBefore (hn.sublist hsub) fun k hk => hp k (hsub.subset hk)) hv

end Phi
