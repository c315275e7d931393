import Phi.Cbor.Offset
import Phi.Cbor.RoundTrip
import Phi.Data.Reader

/-!
# Accepted byte strings are prefix-free

What a reader of the decoder returns depends only on the bytes it used (`Local`): put anything else
after these and it returns the same value with that left over. An accepted byte string followed by more
is therefore read up to its old end, and refused for what trails (`decodeCbor_prefixFree`).
-/

namespace Phi.Cbor

/-- Whatever `r` returns on some input, it returns on the part it used followed by anything. -/
def Local {α : Type} (r : CborReader α) : Prop := Consumes r (Reads r)

namespace Local

variable {α β : Type}

protected theorem pure (a : α) : Local (Pure.pure a : CborReader α) := Consumes.pure (Reads.pure a)

protected theorem throw (failure : Failure) : Local (throw failure : CborReader α) :=
  Consumes.throw failure

protected theorem bind {r : CborReader α} {f : α → CborReader β} (hr : Local r)
    (hf : ∀ a, Local (f a)) : Local (r >>= f) :=
  Consumes.bind hr fun _ a hused => (hf a).mono fun _ _ hused' => hused.bind hused'

/-- A guard that throws: past it, the reader goes on as it would without it. -/
protected theorem guard {p : Prop} [Decidable p] {failure : Failure} {r : CborReader α} (hr : Local r) :
    Local (if p then throw failure else r) := by
  by_cases hp : p
  · rw [if_pos hp]
    exact Local.throw failure
  · rw [if_neg hp]
    exact hr

end Local

theorem local_readByte : Local readByte := by
  intro input value rest h
  cases input with
  | nil => cases h
  | cons b tail =>
    obtain ⟨rfl, rfl⟩ := Prod.mk.inj (Except.ok.inj h)
    exact ⟨[b], rfl, reads_readByte b⟩

theorem local_readBytes (length : ℕ) : Local (readBytes length) := by
  intro input value rest h
  obtain ⟨hle, h⟩ := ite_error_eq_ok.mp h
  obtain ⟨rfl, rfl⟩ := Prod.mk.inj (Except.ok.inj h)
  refine ⟨input.take length, (List.take_append_drop length input).symm, ?_⟩
  have hlength : (input.take length).length = length := List.length_take_of_le (by omega)
  have hreads := reads_readBytes (input.take length)
  rwa [hlength] at hreads

theorem local_readUint32 : Local readUint32 := (local_readBytes 4).bind fun _ => Local.pure _

theorem local_readArgument (additionalInformation : ℕ) : Local (readArgument additionalInformation) := by
  unfold readArgument
  split
  · exact Local.pure _
  split
  · exact local_readByte
  · exact (local_readBytes 2).bind fun _ => Local.pure _
  · exact local_readUint32
  · exact local_readUint32.bind fun _ => local_readUint32.bind fun _ => (Local.pure _).guard
  · exact Local.throw _
  · exact Local.throw _

theorem local_readLength (additionalInformation : ℕ) (kind : String) (limit : ℕ) :
    Local (readLength additionalInformation kind limit) := by
  refine Local.guard ?_
  exact (local_readArgument additionalInformation).bind fun _ => (Local.pure _).guard

theorem local_readSimple (additionalInformation : ℕ) : Local (readSimple additionalInformation) := by
  unfold readSimple
  split
  · exact Local.pure _
  · exact Local.pure _
  · exact Local.pure _
  · exact (local_readBytes 8).bind fun _ => ((Local.pure _).guard).guard
  · exact Local.throw _
  · exact Local.throw _

section Items

variable {item : CborReader CborValue} (hitem : Local item)

include hitem

theorem local_readItems (length : ℕ) : Local (readItems item length) := by
  induction length with
  | zero => exact Local.pure _
  | succ length ih => exact hitem.bind fun _ => ih.bind fun _ => Local.pure _

theorem local_readEntries (length : ℕ) (result : List (JsString × CborValue)) :
    Local (readEntries item length result) := by
  induction length generalizing result with
  | zero => exact Local.pure _
  | succ length ih =>
    refine hitem.bind fun key => ?_
    cases key with
    | string key => exact Local.guard (hitem.bind fun _ => ih _)
    | _ => exact Local.throw _

theorem local_readContent (o : ResolvedCborOptions) (majorType additionalInformation : ℕ) :
    Local (readContent o item majorType additionalInformation) := by
  have hlength := local_readLength additionalInformation
  unfold readContent
  split
  · exact (local_readArgument _).bind fun _ => Local.pure _
  · exact (local_readArgument _).bind fun _ => (Local.pure _).guard
  · exact (hlength _ _).bind fun length => (local_readBytes length).bind fun _ => Local.pure _
  · refine (hlength _ _).bind fun length => (local_readBytes length).bind fun bytes => ?_
    cases textDecode bytes with
    | some value => exact Local.pure _
    | none => exact Local.throw _
  · refine (hlength _ _).bind fun length => ?_
    exact (local_readItems hitem length).bind fun _ => Local.pure _
  · refine (hlength _ _).bind fun length => ?_
    exact (local_readEntries hitem length []).bind fun _ => Local.pure _
  · exact Local.throw _
  · exact local_readSimple _
  · exact Local.throw _

end Items

theorem local_readItem (o : ResolvedCborOptions) (levels : ℕ) : Local (readItem o levels) := by
  induction levels with
  | zero => exact Local.throw _
  | succ levels ih => exact local_readByte.bind fun _ => local_readContent ih o _ _

/-- What `decodeCbor` accepts is one item that takes up the whole input. -/
theorem decodeCbor_eq_ok {bytes : List UInt8} {options : CborOptions} {value : CborValue}
    (h : decodeCbor bytes options = .ok value) :
    ∃ resolved, resolveOptions options = .ok resolved ∧ bytes.length ≤ resolved.maxByteLength ∧
      readItem resolved (resolved.maxDepth + 1) bytes = .ok (value, []) := by
  obtain ⟨resolved, hresolved, h⟩ := bind_eq_ok.mp h
  obtain ⟨hlength, h⟩ := ite_error_eq_ok.mp h
  obtain ⟨⟨item, rest⟩, hitem, h⟩ := bind_eq_ok.mp h
  obtain ⟨hrest, h⟩ := ite_error_eq_ok.mp h
  obtain rfl : item = value := Except.ok.inj h
  rw [not_not.mp hrest] at hitem
  exact ⟨resolved, hresolved, by omega, hitem⟩

/-- An accepted byte string with anything after it is refused. -/
theorem decodeCbor_append {bytes more : List UInt8} {options : CborOptions} {value : CborValue}
    (h : decodeCbor bytes options = .ok value) (hmore : more ≠ []) :
    ∃ failure, decodeCbor (bytes ++ more) options = .error failure := by
  obtain ⟨resolved, hresolved, -, hitem⟩ := decodeCbor_eq_ok h
  obtain ⟨used, hbytes, hreads⟩ := local_readItem resolved (resolved.maxDepth + 1) bytes value [] hitem
  rw [List.append_nil] at hbytes
  unfold decodeCbor
  rw [hresolved, ok_bind]
  split
  · exact ⟨_, rfl⟩
  · rw [hbytes, hreads more, ok_bind]
    exact ⟨_, if_pos hmore⟩

/-- **Decoding is total and prefix-free.** Every input ends in a value or an error without a read beyond
it, and of two byte strings of which one is a proper prefix of the other, at most one is accepted. -/
theorem decodeCbor_prefixFree (bytes : List UInt8) (options : CborOptions) :
    ((∃ value, (decodeCborReads bytes options).1 = .ok value) ∨
      ∃ failure, (decodeCborReads bytes options).1 = .error failure) ∧
    (decodeCborReads bytes options).1 = decodeCbor bytes options ∧
    (∀ access ∈ (decodeCborReads bytes options).2, access.1 + access.2 ≤ bytes.length) ∧
    ∀ value, decodeCbor bytes options = .ok value → ∀ other, other ≠ bytes →
      other <+: bytes ∨ bytes <+: other → ∃ failure, decodeCbor other options = .error failure := by
  obtain ⟨hresult, hinside⟩ := decodeCborReads_inside bytes options
  refine ⟨?_, hresult, hinside, ?_⟩
  · cases (decodeCborReads bytes options).1 with
    | ok value => exact .inl ⟨value, rfl⟩
    | error failure => exact .inr ⟨failure, rfl⟩
  · intro value h other hne hprefix
    rcases hprefix with ⟨more, hbytes⟩ | ⟨more, hother⟩
    · -- were the prefix accepted, the whole would be refused
      have hmore : more ≠ [] := fun hnil => hne (by rw [← hbytes, hnil, List.append_nil])
      cases hdecode : decodeCbor other options with
      | error failure => exact ⟨failure, rfl⟩
      | ok early =>
        obtain ⟨failure, hfailure⟩ := decodeCbor_append hdecode hmore
        rw [hbytes, h] at hfailure
        cases hfailure
    · have hmore : more ≠ [] := fun hnil => hne (by rw [← hother, hnil, List.append_nil])
      rw [← hother]
      exact decodeCbor_append h hmore

/-- Of an accepted pair, no proper prefix and no proper extension is accepted. -/
theorem decodeCbor_prefixFree_pair : ∀ other : List UInt8,
    other ≠ [0x82, 0x01, 0x02] → other <+: [0x82, 0x01, 0x02] ∨ [0x82, 0x01, 0x02] <+: other →
      ∃ failure, decodeCbor other {} = .error failure :=
  (decodeCbor_prefixFree [0x82, 0x01, 0x02] {}).2.2.2
    (.array [.number (.ofInt 1), .number (.ofInt 2)]) (by rfl)

end Phi.Cbor
