import Phi.Delta.Codec
import Phi.Services.Messages

/-!
# The service state codec

Model of `packages/chord/src/services/state-codec.ts`: one delta codec for every state of a
subscription, kept in a registry under the instance's address and the member's name. Encoder and decoder
do the same with their registries and differ in the codec, so both are the functions below, at
`encoderCodec` and at `decoderCodec`.

`decodeHistory_encodeHistory`: a history in which every state update is of a state announced since the
last reset, and no state is announced twice, comes back as it was.
-/

namespace Phi.Services

open Delta

/-! ## Keys -/

def itemText : Option Seg → JsString
  | none => JsString.ofAscii "null"
  | some seg => segText seg

/-- `stateKey(instance, member)`: the JSON text of key, generation and member. -/
def stateKey (address : Option Address) (member : JsString) : JsString :=
  91 :: (itemText (address.map fun a => .key a.key) ++
    44 :: (itemText (address.map fun a => .index a.generation) ++ tailText [.key member]))

theorem itemText_append_injective {x y : Option Seg} {r r' : JsString}
    (h : itemText x ++ 44 :: r = itemText y ++ 44 :: r') : x = y ∧ r = r' := by
  -- no string and no numeral begins as `null` does
  have hnull : ∀ (seg : Seg) (q q' : JsString), itemText none ++ q ≠ itemText (some seg) ++ q' := by
    intro seg q q' heq
    have hhead := congrArg List.head? heq
    cases seg with
    | key k => simp [itemText, segText, JsString.ofAscii] at hhead
    | index n =>
      obtain ⟨u, us, hu⟩ := List.exists_cons_of_ne_nil (numberText_ne_nil n)
      have hdigit : isDigit u = true := isDigit_of_mem_numberText (by rw [hu]; exact List.mem_cons_self)
      simp only [itemText, segText, hu, JsString.ofAscii] at hhead
      obtain rfl : 110 = u := Option.some.inj hhead
      cases hdigit
  cases x with
  | none =>
    cases y with
    | none => exact ⟨rfl, (List.cons.inj (List.append_cancel_left h)).2⟩
    | some seg => exact absurd h (hnull seg _ _)
  | some seg =>
    cases y with
    | none => exact absurd h.symm (hnull seg _ _)
    | some seg' =>
      obtain ⟨rfl, hr⟩ := segText_append_injective rfl rfl h
      exact ⟨rfl, (List.cons.inj hr).2⟩

/-- Two states with one key are one state. -/
theorem stateKey_injective {a b : Option Address} {m n : JsString} (h : stateKey a m = stateKey b n) :
    a = b ∧ m = n := by
  obtain ⟨hkey, h⟩ := itemText_append_injective (List.cons.inj h).2
  obtain ⟨hgeneration, h⟩ := itemText_append_injective (show _ ++ 44 :: _ = _ ++ 44 :: _ from h)
  have hmember : tailText [.key m] = tailText [.key n] := congrArg (List.cons 44) h
  refine ⟨?_, Seg.key.inj (List.cons.inj (tailText_injective hmember)).1⟩
  cases a <;> cases b <;> simp only [Option.map_some, Option.map_none, Option.some.injEq,
    reduceCtorEq, Seg.key.injEq, Seg.index.injEq] at hkey hgeneration ⊢
  exact Address.ext hkey hgeneration

/-! ## The registry -/

/-- `StateCodecRegistry`: the address and the codec of every state, by key. -/
abbrev Registry (C : Type) := Table JsString (Option Address × C)

/-- What a registry needs of its codecs: a fresh one, and one batch. -/
structure Codec (C ω ω' : Type) where
  create : C
  code : C → List ω → Except DeltaError (C × List ω')

def encoderCodec : Codec Delta.Encoder Op WireOp := ⟨encoder, fun e ops => .ok (e.encode ops)⟩

def decoderCodec : Codec Delta.Decoder WireOp Op := ⟨decoder, Delta.Decoder.decode⟩

def describeState (address : Option Address) (member : JsString) : JsString :=
  match address with
  | none => member
  | some a => text [a.key, JsString.ofAscii "@", numberText a.generation, JsString.ofAscii ".", member]

section

variable {C ω ω' : Type}

/-- `add(instance, member)`. -/
def Registry.add (codec : Codec C ω ω') (r : Registry C) (address : Option Address)
    (member : JsString) : Except ServiceError (Registry C) :=
  if Table.has r (stateKey address member) then
    .error (.error (text [JsString.ofAscii "Duplicate service state ", describeState address member]))
  else .ok (Table.set r (stateKey address member) (address, codec.create))

/-- `get(instance, member)`. -/
def Registry.get (r : Registry C) (address : Option Address) (member : JsString) :
    Except ServiceError C :=
  match Table.get r (stateKey address member) with
  | none =>
    .error (.error (text [JsString.ofAscii "Unknown service state ", describeState address member]))
  | some entry => .ok entry.2

/-- One batch of a state through its codec. -/
def Registry.code (codec : Codec C ω ω') (r : Registry C) (address : Option Address)
    (member : JsString) (ops : List ω) : Except ServiceError (Registry C × List ω') := do
  let c ← r.get address member
  let (c, out) ← (codec.code c ops).mapError ServiceError.delta
  return (Table.set r (stateKey address member) (address, c), out)

/-- `removeInstance(instance)`. -/
def Registry.removeInstance (r : Registry C) (address : Address) : Registry C :=
  r.filter fun e => e.2.1 ≠ some address

/-- One member of an instance. -/
def codeMember (codec : Codec C ω ω') (r : Registry C) (address : Option Address) :
    MemberSnapshot ω → Except ServiceError (Registry C × MemberSnapshot ω')
  | .method name => .ok (r, .method name)
  | .state name sequence ops => do
    let r ← r.add codec address name
    let (r, ops) ← r.code codec address name ops
    return (r, .state name sequence ops)

def codeMembers (codec : Codec C ω ω') (r : Registry C) (address : Option Address) :
    List (MemberSnapshot ω) → Except ServiceError (Registry C × List (MemberSnapshot ω'))
  | [] => .ok (r, [])
  | m :: ms => do
    let (r, m) ← codeMember codec r address m
    let (r, ms) ← codeMembers codec r address ms
    return (r, m :: ms)

/-- `encodeInstance` and `decodeInstance`. -/
def codeInstance (codec : Codec C ω ω') (r : Registry C) (i : InstanceSnapshot ω) :
    Except ServiceError (Registry C × InstanceSnapshot ω') := do
  let (r, members) ← codeMembers codec r i.address i.members
  return (r, ⟨i.address, members⟩)

def codeInstances (codec : Codec C ω ω') (r : Registry C) :
    List (InstanceSnapshot ω) → Except ServiceError (Registry C × List (InstanceSnapshot ω'))
  | [] => .ok (r, [])
  | i :: is => do
    let (r, i) ← codeInstance codec r i
    let (r, is) ← codeInstances codec r is
    return (r, i :: is)

/-- `encodeSnapshot` and `decodeSnapshot`: whatever the registry held is dropped. -/
def codeSnapshot (codec : Codec C ω ω') (_ : Registry C) (s : SubscriptionSnapshot ω) :
    Except ServiceError (Registry C × SubscriptionSnapshot ω') := do
  let (r, instances) ← codeInstances codec [] s.instances
  return (r, ⟨s.serviceId, s.mode, instances⟩)

/-- `encodeUpdate` and `decodeUpdate`. -/
def codeUpdate (codec : Codec C ω ω') (r : Registry C) :
    Update ω → Except ServiceError (Registry C × Update ω')
  | .state address member sequence ops => do
    let (r, ops) ← r.code codec address member ops
    return (r, .state address member sequence ops)
  | .replaced snapshot => do
    let (r, snapshot) ← codeInstance codec [] snapshot
    return (r, .replaced snapshot)
  | .spawned i => do
    let (r, i) ← codeInstance codec r i
    return (r, .spawned i)
  | .unavailable => .ok ([], .unavailable)
  | .closed address => .ok (r.removeInstance address, .closed address)

def codeUpdates (codec : Codec C ω ω') (r : Registry C) :
    List (Update ω) → Except ServiceError (Registry C × List (Update ω'))
  | [] => .ok (r, [])
  | u :: us => do
    let (r, u) ← codeUpdate codec r u
    let (r, us) ← codeUpdates codec r us
    return (r, u :: us)

/-- A snapshot and the updates that follow it, through a fresh registry. -/
def codeHistory (codec : Codec C ω ω') (s : SubscriptionSnapshot ω) (us : List (Update ω)) :
    Except ServiceError (SubscriptionSnapshot ω' × List (Update ω')) := do
  let (r, s) ← codeSnapshot codec [] s
  let (_, us) ← codeUpdates codec r us
  return (s, us)

end

/-- A subscription through one service-state encoder. -/
def encodeHistory : SubscriptionSnapshot Op → List (Update Op) →
    Except ServiceError (SubscriptionSnapshot WireOp × List (Update WireOp)) :=
  codeHistory encoderCodec

/-- A subscription through one service-state decoder. -/
def decodeHistory : SubscriptionSnapshot WireOp → List (Update WireOp) →
    Except ServiceError (SubscriptionSnapshot Op × List (Update Op)) :=
  codeHistory decoderCodec

/-! ## Announced states -/

/-- The states a subscription has been told of and that are not gone. -/
abbrev Announced := List (Option Address × JsString)

section

variable {ω : Type}

/-- The states a snapshot of an instance announces. -/
def memberKeys (address : Option Address) (members : List (MemberSnapshot ω)) : Announced :=
  members.filterMap fun m =>
    match m with
    | .state name _ _ => some (address, name)
    | .method _ => none

def InstanceSnapshot.keys (i : InstanceSnapshot ω) : Announced := memberKeys i.address i.members

def SubscriptionSnapshot.keys (s : SubscriptionSnapshot ω) : Announced :=
  s.instances.flatMap InstanceSnapshot.keys

/-- What is announced after an update; none where the update does not fit. -/
def Announced.after (live : Announced) : Update ω → Option Announced
  | .state address member _ _ => if (address, member) ∈ live then some live else none
  | .unavailable => some []
  | .replaced snapshot => if snapshot.keys.Nodup then some snapshot.keys else none
  | .spawned i => if (live ++ i.keys).Nodup then some (live ++ i.keys) else none
  | .closed address => some (live.filter fun k => k.1 ≠ some address)

end

/-- `assertValidOp` accepts the ops of a member. -/
def MemberSnapshot.Valid : MemberSnapshot Op → Prop
  | .method _ => True
  | .state _ _ ops => ∀ op ∈ ops, op.Valid

def InstanceSnapshot.Valid (i : InstanceSnapshot Op) : Prop := ∀ m ∈ i.members, m.Valid

def Update.Valid : Update Op → Prop
  | .state _ _ _ ops => ∀ op ∈ ops, op.Valid
  | .replaced snapshot => snapshot.Valid
  | .spawned i => i.Valid
  | .unavailable => True
  | .closed _ => True

/-! ## In step -/

/-- The two registries hold codecs in step for exactly the announced states. -/
structure Paired (r : Registry Delta.Encoder) (r' : Registry Delta.Decoder) (live : Announced) : Prop where
  entries : List.Forall₂ (fun e d => e.1 = d.1 ∧ e.2.1 = d.2.1 ∧ InStep e.2.2 d.2.2) r r'
  keys : r.map (fun e => (e.1, e.2.1)) = live.map fun k => (stateKey k.1 k.2, k.1)

namespace Paired

variable {r : Registry Delta.Encoder} {r' : Registry Delta.Decoder} {live : Announced}

theorem nil : Paired [] [] [] := ⟨.nil, rfl⟩

theorem mem_keys (h : Paired r r' live) {key : JsString} :
    key ∈ Table.keys r ↔ ∃ k ∈ live, stateKey k.1 k.2 = key := by
  have hkeys : Table.keys r = live.map fun k => stateKey k.1 k.2 := by
    have hfst := congrArg (List.map Prod.fst) h.keys
    rw [List.map_map, List.map_map] at hfst
    exact hfst
  rw [hkeys, List.mem_map]

theorem keys_eq (h : Paired r r' live) : Table.keys r = Table.keys r' := by
  have hall := h.entries
  clear h
  induction hall with
  | nil => rfl
  | cons hhead _ ih => simp only [Table.keys_cons, hhead.1, ih]

/-- The codecs of an announced state. -/
theorem get (h : Paired r r' live) {address : Option Address} {member : JsString}
    (hmem : (address, member) ∈ live) :
    ∃ e d, r.get address member = .ok e ∧ r'.get address member = .ok d ∧ InStep e d := by
  have hkey : stateKey address member ∈ Table.keys r := h.mem_keys.mpr ⟨_, hmem, rfl⟩
  have hall := h.entries
  clear h
  simp only [Registry.get]
  induction hall with
  | nil => cases hkey
  | @cons e d r r' hhead _ ih =>
    obtain ⟨hfst, -, hstep⟩ := hhead
    simp only [Table.get_cons, ← hfst]
    by_cases heq : e.1 = stateKey address member
    · simp only [if_pos heq]
      exact ⟨e.2.2, d.2.2, rfl, rfl, hstep⟩
    · simp only [if_neg heq]
      rw [Table.keys_cons] at hkey
      exact ih ((List.mem_cons.mp hkey).resolve_left (Ne.symm heq))

/-- Codecs in step put in the place of others, or at the end. -/
theorem entries_set {key : JsString} {address : Option Address} {e : Delta.Encoder} {d : Delta.Decoder}
    (h : List.Forall₂ (fun (e : JsString × Option Address × Delta.Encoder)
      (d : JsString × Option Address × Delta.Decoder) =>
        e.1 = d.1 ∧ e.2.1 = d.2.1 ∧ InStep e.2.2 d.2.2) r r') (hstep : InStep e d) :
    List.Forall₂ (fun e d => e.1 = d.1 ∧ e.2.1 = d.2.1 ∧ InStep e.2.2 d.2.2)
      (Table.set r key (address, e)) (Table.set r' key (address, d)) := by
  induction h with
  | nil => exact .cons ⟨rfl, rfl, hstep⟩ .nil
  | @cons x y r r' hhead hrest ih =>
    obtain ⟨hfst, hhead⟩ := hhead
    simp only [Table.set, ← hfst]
    split
    · exact .cons ⟨rfl, rfl, hstep⟩ hrest
    · exact .cons ⟨rfl, hhead⟩ ih

theorem set (h : Paired r r' live) {address : Option Address} {member : JsString}
    (hmem : (address, member) ∈ live) {e : Delta.Encoder} {d : Delta.Decoder} (hstep : InStep e d) :
    Paired (Table.set r (stateKey address member) (address, e))
      (Table.set r' (stateKey address member) (address, d)) live := by
  refine ⟨entries_set h.entries hstep, ?_⟩
  -- the entry that is replaced has this key and so this address
  have haddr : ∀ e ∈ r, e.1 = stateKey address member → e.2.1 = address := by
    intro e he hkey
    have hpair : (e.1, e.2.1) ∈ live.map fun k => (stateKey k.1 k.2, k.1) := by
      rw [← h.keys]
      exact List.mem_map_of_mem he
    obtain ⟨k, -, heq⟩ := List.mem_map.mp hpair
    obtain ⟨hk, ha⟩ := Prod.mk.inj heq
    rw [← ha]
    exact (stateKey_injective (hk.trans hkey)).1
  have hin : stateKey address member ∈ Table.keys r := h.mem_keys.mpr ⟨_, hmem, rfl⟩
  rw [← h.keys]
  clear h hmem
  induction r with
  | nil => cases hin
  | cons x r ih =>
    simp only [Table.set]
    split
    · next heq =>
      simp only [List.map_cons, heq, haddr x List.mem_cons_self heq]
    · next heq =>
      rw [List.map_cons, List.map_cons, ih (fun e he => haddr e (List.mem_cons_of_mem _ he))]
      rw [Table.keys_cons] at hin
      exact (List.mem_cons.mp hin).resolve_left (Ne.symm heq)

/-- A new state gets a fresh codec on both sides. -/
theorem add (h : Paired r r' live) {address : Option Address} {member : JsString}
    (hnew : (address, member) ∉ live) :
    ∃ r₁ r₁', r.add encoderCodec address member = .ok r₁ ∧ r'.add decoderCodec address member = .ok r₁' ∧
      Paired r₁ r₁' (live ++ [(address, member)]) := by
  have hnot : stateKey address member ∉ Table.keys r := by
    intro hin
    obtain ⟨k, hk, heq⟩ := h.mem_keys.mp hin
    obtain ⟨h₁, h₂⟩ := stateKey_injective heq
    exact hnew (by rw [← h₁, ← h₂]; exact hk)
  have hnot' : stateKey address member ∉ Table.keys r' := by rw [← h.keys_eq]; exact hnot
  refine ⟨_, _, if_neg (by simpa using hnot), if_neg (by simpa using hnot'), ?_, ?_⟩
  · exact entries_set h.entries inStep_initial
  · rw [Table.set_of_not_mem hnot, List.map_append, List.map_append, h.keys]
    rfl

theorem removeInstance (h : Paired r r' live) (address : Address) :
    Paired (r.removeInstance address) (r'.removeInstance address)
      (live.filter fun k => k.1 ≠ some address) := by
  constructor
  · have hall := h.entries
    clear h
    simp only [Registry.removeInstance]
    induction hall with
    | nil => exact .nil
    | cons hhead hrest ih =>
      simp only [List.filter_cons, ← hhead.2.1]
      split
      · exact .cons hhead ih
      · exact ih
  · rw [Registry.removeInstance]
    have hfilter : ∀ {α : Type} (f : α → JsString × Option Address) (l : List α),
        (l.filter fun x => (f x).2 ≠ some address).map f
          = (l.map f).filter fun x => x.2 ≠ some address := by
      intro α f l
      rw [List.filter_map]
      rfl
    have hleft := hfilter (fun e : JsString × Option Address × Delta.Encoder => (e.1, e.2.1)) r
    have hright := hfilter (fun k : Option Address × JsString => (stateKey k.1 k.2, k.1)) live
    exact hleft.trans ((congrArg _ h.keys).trans hright.symm)

/-- A batch of an announced state is decoded to itself. -/
theorem code (h : Paired r r' live) {address : Option Address} {member : JsString}
    (hmem : (address, member) ∈ live) {ops : List Op} (hvalid : ∀ op ∈ ops, op.Valid) :
    ∃ r₁ r₁' wire, r.code encoderCodec address member ops = .ok (r₁, wire) ∧
      r'.code decoderCodec address member wire = .ok (r₁', ops) ∧ Paired r₁ r₁' live := by
  obtain ⟨e, d, he, hd, hstep⟩ := h.get hmem
  obtain ⟨d₁, hstep₁, hdec⟩ := decodeOps_encodeOps none hstep hvalid
  have hdec' : decoderCodec.code d (e.encode ops).2 = .ok (d₁, ops) := hdec
  refine ⟨_, _, (e.encode ops).2, ?_, ?_, h.set hmem hstep₁⟩
  · rw [Registry.code, he]
    rfl
  · rw [Registry.code, hd, ok_bind, hdec']
    rfl

end Paired

/-! ## Round trip -/

section

variable {r : Registry Delta.Encoder} {r' : Registry Delta.Decoder} {live : Announced}

theorem codeMember_paired (h : Paired r r' live) (address : Option Address) {m : MemberSnapshot Op}
    (hnew : (live ++ memberKeys address [m]).Nodup) (hvalid : m.Valid) :
    ∃ r₁ r₁' wire, codeMember encoderCodec r address m = .ok (r₁, wire) ∧
      codeMember decoderCodec r' address wire = .ok (r₁', m) ∧
      Paired r₁ r₁' (live ++ memberKeys address [m]) := by
  cases m with
  | method name => exact ⟨r, r', .method name, rfl, rfl, by simpa [memberKeys] using h⟩
  | state name sequence ops =>
    have hnot : (address, name) ∉ live := by
      intro hin
      exact (List.nodup_append.mp hnew).2.2 _ hin _ (List.mem_singleton.mpr rfl) rfl
    obtain ⟨r₁, r₁', hadd, hadd', h₁⟩ := h.add hnot
    obtain ⟨r₂, r₂', wire, henc, hdec, h₂⟩ := h₁.code (List.mem_append_right _
      (List.mem_singleton.mpr rfl)) hvalid
    refine ⟨r₂, r₂', .state name sequence wire, ?_, ?_, h₂⟩
    · rw [codeMember, hadd, ok_bind, henc]
      rfl
    · rw [codeMember, hadd', ok_bind, hdec]
      rfl

theorem codeMembers_paired (h : Paired r r' live) (address : Option Address)
    {ms : List (MemberSnapshot Op)} (hnew : (live ++ memberKeys address ms).Nodup)
    (hvalid : ∀ m ∈ ms, m.Valid) :
    ∃ r₁ r₁' wire, codeMembers encoderCodec r address ms = .ok (r₁, wire) ∧
      codeMembers decoderCodec r' address wire = .ok (r₁', ms) ∧
      Paired r₁ r₁' (live ++ memberKeys address ms) := by
  induction ms generalizing r r' live with
  | nil => exact ⟨r, r', [], rfl, rfl, by simpa [memberKeys] using h⟩
  | cons m ms ih =>
    simp only [List.forall_mem_cons] at hvalid
    have hkeys : live ++ memberKeys address (m :: ms)
        = live ++ memberKeys address [m] ++ memberKeys address ms := by
      rw [List.append_assoc, memberKeys, memberKeys, memberKeys, ← List.filterMap_append,
        List.singleton_append]
    rw [hkeys] at hnew ⊢
    obtain ⟨r₁, r₁', w, henc, hdec, h₁⟩ := codeMember_paired h address
      (List.Nodup.of_append_left hnew) hvalid.1
    obtain ⟨r₂, r₂', ws, henc', hdec', h₂⟩ := ih h₁ hnew hvalid.2
    refine ⟨r₂, r₂', w :: ws, ?_, ?_, h₂⟩
    · rw [codeMembers, henc, ok_bind]
      simp only [henc', ok_bind]
      rfl
    · rw [codeMembers, hdec, ok_bind]
      simp only [hdec', ok_bind]
      rfl

theorem codeInstance_paired (h : Paired r r' live) {i : InstanceSnapshot Op}
    (hnew : (live ++ i.keys).Nodup) (hvalid : i.Valid) :
    ∃ r₁ r₁' wire, codeInstance encoderCodec r i = .ok (r₁, wire) ∧
      codeInstance decoderCodec r' wire = .ok (r₁', i) ∧ Paired r₁ r₁' (live ++ i.keys) := by
  obtain ⟨r₁, r₁', wire, henc, hdec, h₁⟩ := codeMembers_paired h i.address hnew hvalid
  refine ⟨r₁, r₁', ⟨i.address, wire⟩, ?_, ?_, h₁⟩
  · rw [codeInstance, henc]
    rfl
  · rw [codeInstance, hdec]
    rfl

theorem codeInstances_paired (h : Paired r r' live) {is : List (InstanceSnapshot Op)}
    (hnew : (live ++ is.flatMap InstanceSnapshot.keys).Nodup) (hvalid : ∀ i ∈ is, i.Valid) :
    ∃ r₁ r₁' wire, codeInstances encoderCodec r is = .ok (r₁, wire) ∧
      codeInstances decoderCodec r' wire = .ok (r₁', is) ∧
      Paired r₁ r₁' (live ++ is.flatMap InstanceSnapshot.keys) := by
  induction is generalizing r r' live with
  | nil => exact ⟨r, r', [], rfl, rfl, by simpa using h⟩
  | cons i is ih =>
    simp only [List.forall_mem_cons] at hvalid
    rw [List.flatMap_cons, ← List.append_assoc] at hnew ⊢
    obtain ⟨r₁, r₁', w, henc, hdec, h₁⟩ := codeInstance_paired h
      (List.Nodup.of_append_left hnew) hvalid.1
    obtain ⟨r₂, r₂', ws, henc', hdec', h₂⟩ := ih h₁ hnew hvalid.2
    refine ⟨r₂, r₂', w :: ws, ?_, ?_, h₂⟩
    · rw [codeInstances, henc, ok_bind]
      simp only [henc', ok_bind]
      rfl
    · rw [codeInstances, hdec, ok_bind]
      simp only [hdec', ok_bind]
      rfl

/-- One update that fits what is announced. -/
theorem codeUpdate_paired (h : Paired r r' live) {u : Update Op} {live' : Announced}
    (hafter : live.after u = some live') (hvalid : u.Valid) :
    ∃ r₁ r₁' wire, codeUpdate encoderCodec r u = .ok (r₁, wire) ∧
      codeUpdate decoderCodec r' wire = .ok (r₁', u) ∧ Paired r₁ r₁' live' := by
  cases u with
  | state address member sequence ops =>
    simp only [Announced.after, Option.ite_none_right_eq_some, Option.some.injEq] at hafter
    obtain ⟨hmem, rfl⟩ := hafter
    obtain ⟨r₁, r₁', wire, henc, hdec, h₁⟩ := h.code hmem hvalid
    refine ⟨r₁, r₁', .state address member sequence wire, ?_, ?_, h₁⟩
    · rw [codeUpdate, henc]
      rfl
    · rw [codeUpdate, hdec]
      rfl
  | unavailable =>
    obtain rfl := Option.some.inj hafter
    exact ⟨[], [], .unavailable, rfl, rfl, .nil⟩
  | replaced snapshot =>
    simp only [Announced.after, Option.ite_none_right_eq_some, Option.some.injEq] at hafter
    obtain ⟨hnodup, rfl⟩ := hafter
    obtain ⟨r₁, r₁', wire, henc, hdec, h₁⟩ := codeInstance_paired .nil hnodup hvalid
    refine ⟨r₁, r₁', .replaced wire, ?_, ?_, h₁⟩
    · rw [codeUpdate, henc]
      rfl
    · rw [codeUpdate, hdec]
      rfl
  | spawned i =>
    simp only [Announced.after, Option.ite_none_right_eq_some, Option.some.injEq] at hafter
    obtain ⟨hnodup, rfl⟩ := hafter
    obtain ⟨r₁, r₁', wire, henc, hdec, h₁⟩ := codeInstance_paired h hnodup hvalid
    refine ⟨r₁, r₁', .spawned wire, ?_, ?_, h₁⟩
    · rw [codeUpdate, henc]
      rfl
    · rw [codeUpdate, hdec]
      rfl
  | closed address =>
    obtain rfl := Option.some.inj hafter
    exact ⟨_, _, .closed address, rfl, rfl, h.removeInstance address⟩

theorem codeUpdates_paired (h : Paired r r' live) {us : List (Update Op)} {live' : Announced}
    (hafter : us.foldlM Announced.after live = some live') (hvalid : ∀ u ∈ us, u.Valid) :
    ∃ r₁ r₁' wire, codeUpdates encoderCodec r us = .ok (r₁, wire) ∧
      codeUpdates decoderCodec r' wire = .ok (r₁', us) := by
  induction us generalizing r r' live with
  | nil => exact ⟨r, r', [], rfl, rfl⟩
  | cons u us ih =>
    simp only [List.forall_mem_cons] at hvalid
    rw [List.foldlM_cons] at hafter
    obtain ⟨live₁, hafter₁, hafter⟩ := Option.bind_eq_some_iff.mp hafter
    obtain ⟨r₁, r₁', w, henc, hdec, h₁⟩ := codeUpdate_paired h hafter₁ hvalid.1
    obtain ⟨r₂, r₂', ws, henc', hdec'⟩ := ih h₁ hafter hvalid.2
    refine ⟨r₂, r₂', w :: ws, ?_, ?_⟩
    · rw [codeUpdates, henc, ok_bind]
      simp only [henc', ok_bind]
      rfl
    · rw [codeUpdates, hdec, ok_bind]
      simp only [hdec', ok_bind]
      rfl

end

/-- What a codec needs of a subscription: no state is announced twice, and every update is of a state
announced and not gone. -/
structure Legal (s : SubscriptionSnapshot Op) (us : List (Update Op)) : Prop where
  nodup : s.keys.Nodup
  fits : ∃ live, us.foldlM Announced.after s.keys = some live
  snapshotValid : ∀ i ∈ s.instances, i.Valid
  updatesValid : ∀ u ∈ us, u.Valid

/-- **A legal history comes back as it was.** -/
theorem decodeHistory_encodeHistory {s : SubscriptionSnapshot Op} {us : List (Update Op)}
    (h : Legal s us) :
    ∃ wire, encodeHistory s us = .ok wire ∧ decodeHistory wire.1 wire.2 = .ok (s, us) := by
  obtain ⟨r, r', is, henc, hdec, hpaired⟩ := codeInstances_paired .nil
    (show ([] ++ s.instances.flatMap InstanceSnapshot.keys).Nodup from h.nodup) h.snapshotValid
  obtain ⟨live, hfits⟩ := h.fits
  obtain ⟨r₁, r₁', ws, henc', hdec'⟩ := codeUpdates_paired hpaired hfits h.updatesValid
  refine ⟨(⟨s.serviceId, s.mode, is⟩, ws), ?_, ?_⟩
  · rw [encodeHistory, codeHistory, codeSnapshot, henc, ok_bind]
    simp only [pure, Except.pure, ok_bind, henc']
  · rw [decodeHistory, codeHistory, codeSnapshot, hdec, ok_bind]
    simp only [pure, Except.pure, ok_bind, hdec']

end Phi.Services
