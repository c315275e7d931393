import Phi.Delta.Apply

/-!
# The delta wire codec

Model of `encoder` and `decoder` of `packages/chord/src/delta/index.ts`. A wire op carries its path
inline, as an id defined by an earlier `#` op, or not at all when it is that of the op before it in the
batch; arity tells the three apart, here an `Option PathRef`.

`decode_encode`: the decoder gives back every batch, and so does a fresh decoder that starts at any
later base batch. Encoder and decoder are in step (`InStep`) when every id the encoder would write
resolves to its path. A replacement puts them in step whatever the decoder held, and every other op
keeps them in step.
-/

namespace Phi.Delta

/-- A path inline, or an id assigned by the encoder on second use. -/
inductive PathRef where
  | path (path : Path)
  | id (id : ℕ)

/-- What crosses a boundary; a missing reference reuses the previous op's path. -/
inductive WireOp where
  | r (value : Json)
  | s (ref : Option PathRef) (value : Json)
  | d (ref : Option PathRef)
  | a (ref : Option PathRef) (text : JsString)
  | t (ref : Option PathRef) (count : ℕ)
  | p (ref : Option PathRef) (index remove : ℕ) (items : List Json)
  | define (id : ℕ) (path : Path)

/-- The path of an op; a replacement has none. -/
def Op.path? : Op → Option Path
  | .r _ => none
  | .s path _ | .d path | .a path _ | .t path _ | .p path _ _ _ => some path

/-- The wire form of an op under a reference. -/
def Op.toWire : Op → Option PathRef → WireOp
  | .r value, _ => .r value
  | .s _ value, ref => .s ref value
  | .d _, ref => .d ref
  | .a _ text, ref => .a ref text
  | .t _ count, ref => .t ref count
  | .p _ index remove items, ref => .p ref index remove items

/-! ## Encoder -/

/-- The state an encoder keeps across batches. -/
structure Encoder where
  seen : List JsString
  ids : Table JsString ℕ
  nextId : ℕ

/-- `encoder()`. -/
def encoder : Encoder := { seen := [], ids := [], nextId := 0 }

/-- One op of a batch; `previous` is the key of the last path in the batch. -/
def encodeOp (e : Encoder) (previous : Option JsString) (op : Op) :
    Encoder × Option JsString × List WireOp :=
  match op.path? with
  -- a base batch is a recovery point: what follows refers to nothing before it
  | none => (encoder, none, [op.toWire none])
  | some path =>
    let key := pathText path
    if previous = some key then (e, previous, [op.toWire none])
    else
      match e.ids.get key with
      | some id => (e, some key, [op.toWire (some (.id id))])
      | none =>
        if key ∈ e.seen then
          ({ e with ids := e.ids.set key e.nextId, nextId := e.nextId + 1 }, some key,
            [.define e.nextId path, op.toWire (some (.id e.nextId))])
        else ({ e with seen := e.seen ++ [key] }, some key, [op.toWire (some (.path path))])

/-- The rest of a batch. -/
def encodeOps (e : Encoder) (previous : Option JsString) : List Op → Encoder × List WireOp
  | [] => (e, [])
  | op :: ops =>
    let (e, previous, wire) := encodeOp e previous op
    let (e, rest) := encodeOps e previous ops
    (e, wire ++ rest)

/-- `encode(ops)`. -/
def Encoder.encode (e : Encoder) (ops : List Op) : Encoder × List WireOp := encodeOps e none ops

/-- Batch after batch with one encoder. -/
def Encoder.encodeAll (e : Encoder) : List (List Op) → List (List WireOp)
  | [] => []
  | ops :: batches => (e.encode ops).2 :: (e.encode ops).1.encodeAll batches

/-! ## Decoder -/

/-- The paths a decoder knows by id. -/
abbrev Decoder := Table ℕ Path

/-- `decoder()`. -/
def decoder : Decoder := []

def assertValidWireOp : WireOp → Except DeltaError Unit
  | .r _ => .ok ()
  | .s ref _ | .d ref | .a ref _ | .t ref _ | .p ref _ _ _ =>
    match ref with
    | some (.path path) => assertSafePath path
    | _ => .ok ()
  | .define _ path => assertSafePath path

/-- The path a reference stands for. -/
def resolveRef (d : Decoder) (previous : Option Path) (ref : Option PathRef) :
    Except DeltaError Path :=
  match ref with
  | none =>
    match previous with
    | none => .error (.pathError [])
    | some path => .ok path
  | some (.id id) =>
    match d.get id with
    | none => .error (.pathIdError id)
    | some path => .ok path
  | some (.path path) => .ok path

/-- An op that addresses a member or element, on a path that may be empty on the wire. -/
def nonEmptyOp (path : Path) (op : Op) : Except DeltaError Op :=
  if path = [] then .error (.pathError path) else .ok op

/-- The op under its resolved path. -/
def WireOp.toOp (path : Path) : WireOp → Except DeltaError Op
  | .s _ value => nonEmptyOp path (.s path value)
  | .d _ => nonEmptyOp path (.d path)
  | .a _ text => nonEmptyOp path (.a path text)
  | .t _ count => nonEmptyOp path (.t path count)
  | .p _ index remove items => .ok (.p path index remove items)
  | .r value => .ok (.r value)
  | .define _ _ => .error (.pathError path)

/-- One wire op; `previous` is the last path in the batch. -/
def decodeOp (d : Decoder) (previous : Option Path) (op : WireOp) :
    Except DeltaError (Decoder × Option Path × List Op) := do
  assertValidWireOp op
  match op with
  | .define id path => do
    assertSafePath path
    return (d.set id path, previous, [])
  | .r value => return (decoder, none, [.r value])
  | .s ref _ | .d ref | .a ref _ | .t ref _ | .p ref _ _ _ => do
    let path ← resolveRef d previous ref
    let op ← op.toOp path
    return (d, some path, [op])

/-- The rest of a batch. -/
def decodeOps (d : Decoder) (previous : Option Path) :
    List WireOp → Except DeltaError (Decoder × List Op)
  | [] => .ok (d, [])
  | op :: wire => do
    let (d, previous, ops) ← decodeOp d previous op
    let (d, rest) ← decodeOps d previous wire
    return (d, ops ++ rest)

/-- `decode(wire)`. -/
def Decoder.decode (d : Decoder) (wire : List WireOp) : Except DeltaError (Decoder × List Op) :=
  decodeOps d none wire

/-- Batch after batch with one decoder. -/
def Decoder.decodeAll (d : Decoder) : List (List WireOp) → Except DeltaError (List (List Op))
  | [] => .ok []
  | wire :: batches => do
    let (d, ops) ← Decoder.decode d wire
    let rest ← Decoder.decodeAll d batches
    return ops :: rest

/-! ## In step -/

/-- Every id the encoder would write resolves to its path, and the next id is unused. -/
structure InStep (e : Encoder) (d : Decoder) : Prop where
  resolves : ∀ path id, e.ids.get (pathText path) = some id → d.get id = some path
  bound : ∀ key id, e.ids.get key = some id → id < e.nextId

theorem inStep_initial : InStep encoder decoder := ⟨by simp [encoder], by simp [encoder]⟩

/-- A second use of a path puts the same id on both sides. -/
theorem InStep.define {e : Encoder} {d : Decoder} (h : InStep e d) (path : Path) :
    InStep { e with ids := e.ids.set (pathText path) e.nextId, nextId := e.nextId + 1 }
      (Table.set d e.nextId path) where
  resolves path' id hid := by
    simp only [Table.get_set] at hid ⊢
    split at hid
    · next heq =>
      obtain rfl := pathText_injective heq
      rw [if_pos (Option.some.inj hid)]
    · have hlt := h.bound _ id hid
      rw [if_neg (by omega)]
      exact h.resolves path' id hid
  bound key id hid := by
    show id < e.nextId + 1
    simp only [Table.get_set] at hid
    split at hid
    · have := Option.some.inj hid
      omega
    · have := h.bound key id hid
      omega

theorem toOp_toWire {op : Op} {path : Path} (hvalid : op.Valid) (hpath : op.path? = some path)
    (ref : Option PathRef) : (op.toWire ref).toOp path = .ok op := by
  have hne : ∀ {q : Path}, assertPathArg q true = .ok () → ¬q = [] := fun h =>
    (assertPathArg_eq_ok.mp h).1 rfl
  cases op <;> simp only [Op.path?, reduceCtorEq, Option.some.injEq] at hpath <;> subst hpath
  all_goals first
    | exact if_neg (hne hvalid)
    | rfl

theorem safePath_of_valid {op : Op} {path : Path} (hvalid : op.Valid) (hpath : op.path? = some path) :
    SafePath path := by
  cases op <;> simp only [Op.path?, reduceCtorEq, Option.some.injEq] at hpath <;> subst hpath <;>
    exact (assertPathArg_eq_ok.mp hvalid).2

/-- An op under a reference that resolves to its path is decoded to itself. -/
theorem decodeOp_toWire {d : Decoder} {previous : Option Path} {op : Op} {path : Path}
    {ref : Option PathRef} (hvalid : op.Valid) (hpath : op.path? = some path)
    (href : resolveRef d previous ref = .ok path) :
    decodeOp d previous (op.toWire ref) = .ok (d, some path, [op]) := by
  have hcheck : assertValidWireOp (op.toWire ref) = .ok () := by
    have hsafe := assertSafePath_eq_ok.mpr (safePath_of_valid hvalid hpath)
    cases op <;> simp only [Op.path?, reduceCtorEq] at hpath <;>
      rcases ref with _ | (q | id) <;> try rfl
    all_goals
      obtain rfl : q = path := Except.ok.inj href
      exact hsafe
  have hop := toOp_toWire hvalid hpath ref
  rw [decodeOp.eq_def, hcheck, ok_bind]
  cases op <;> simp only [Op.path?, reduceCtorEq] at hpath <;>
    simp only [Op.toWire, href, ok_bind] at hop ⊢ <;> rw [hop] <;> rfl

/-- The wire ops of one op decode to it, and leave the two sides in step. -/
theorem decodeOps_encodeOp {e : Encoder} {d : Decoder} {previous : Option Path} {op : Op}
    (h : InStep e d) (hvalid : op.Valid) (wire : List WireOp) :
    ∃ d' previous', InStep (encodeOp e (previous.map pathText) op).1 d' ∧
      (encodeOp e (previous.map pathText) op).2.1 = previous'.map pathText ∧
      decodeOps d previous ((encodeOp e (previous.map pathText) op).2.2 ++ wire)
        = (do
          let (d, rest) ← decodeOps d' previous' wire
          return (d, op :: rest)) := by
  cases hpath : op.path? with
  | none =>
    cases op <;> simp only [Op.path?, reduceCtorEq] at hpath
    exact ⟨decoder, none, inStep_initial, rfl, rfl⟩
  | some path =>
    -- whatever the reference, the op itself is decoded the same way
    have hdecode : ∀ (d' : Decoder) (prev : Option Path) (ref : Option PathRef),
        resolveRef d' prev ref = .ok path →
        decodeOps d' prev ([op.toWire ref] ++ wire) = (do
          let (d, rest) ← decodeOps d' (some path) wire
          return (d, op :: rest)) := by
      intro d' prev ref href
      rw [List.singleton_append, decodeOps, decodeOp_toWire hvalid hpath href]
      rfl
    simp only [encodeOp, hpath]
    split
    · next hsame =>
      obtain ⟨q, hq, hkey⟩ := Option.map_eq_some_iff.mp hsame
      obtain rfl := pathText_injective hkey
      exact ⟨d, some q, h, hsame, hdecode d previous none (by rw [hq]; rfl)⟩
    split
    · next id hid =>
      refine ⟨d, some path, h, rfl, hdecode d previous _ ?_⟩
      simp only [resolveRef, h.resolves path id hid]
    split
    · refine ⟨Table.set d e.nextId path, some path, h.define path, rfl, ?_⟩
      have hsafe := assertSafePath_eq_ok.mpr (safePath_of_valid hvalid hpath)
      have hdef : decodeOp d previous (.define e.nextId path)
          = .ok (Table.set d e.nextId path, previous, []) := by
        simp only [decodeOp, assertValidWireOp, hsafe, ok_bind]
        rfl
      rw [List.cons_append, decodeOps, hdef, ok_bind]
      simp only [hdecode (Table.set d e.nextId path) previous (some (.id e.nextId))
        (by simp [resolveRef])]
      cases decodeOps (Table.set d e.nextId path) (some path) wire <;> rfl
    · exact ⟨d, some path, ⟨h.resolves, h.bound⟩, rfl, hdecode d previous _ rfl⟩

theorem decodeOps_encodeOps {e : Encoder} {d : Decoder} (previous : Option Path) {ops : List Op}
    (h : InStep e d) (hvalid : ∀ op ∈ ops, op.Valid) :
    ∃ d', InStep (encodeOps e (previous.map pathText) ops).1 d' ∧
      decodeOps d previous (encodeOps e (previous.map pathText) ops).2 = .ok (d', ops) := by
  induction ops generalizing e d previous with
  | nil => exact ⟨d, h, rfl⟩
  | cons op ops ih =>
    simp only [List.forall_mem_cons] at hvalid
    obtain ⟨d₁, previous₁, hstep, hprev, hdec⟩ := decodeOps_encodeOp h hvalid.1
      (encodeOps (encodeOp e (previous.map pathText) op).1
        (encodeOp e (previous.map pathText) op).2.1 ops).2
    obtain ⟨d₂, hstep₂, hdec₂⟩ := ih previous₁ hstep hvalid.2
    rw [← hprev] at hstep₂ hdec₂
    refine ⟨d₂, hstep₂, ?_⟩
    simp only [encodeOps]
    rw [hdec, hdec₂]
    rfl

/-- From a base batch on, the decoder need not have seen anything before. -/
theorem decode_base {ops : List Op} (hbase : isBase ops = true) (hvalid : ∀ op ∈ ops, op.Valid)
    (e : Encoder) (d : Decoder) :
    ∃ d', InStep (e.encode ops).1 d' ∧ Decoder.decode d (e.encode ops).2 = .ok (d', ops) := by
  match ops with
  | .r value :: ops =>
    simp only [List.forall_mem_cons] at hvalid
    obtain ⟨d', hstep, hdec⟩ := decodeOps_encodeOps none inStep_initial hvalid.2
    refine ⟨d', hstep, ?_⟩
    have hcons : Decoder.decode d (e.encode (.r value :: ops)).2 = (do
        let (d, rest) ← decodeOps decoder none (encodeOps encoder none ops).2
        return (d, .r value :: rest)) := rfl
    rw [hcons]
    simp only [Option.map_none] at hdec
    rw [hdec]
    rfl

theorem decodeAll_encodeAll {e : Encoder} {d : Decoder} {batches : List (List Op)} (h : InStep e d)
    (hvalid : ∀ ops ∈ batches, ∀ op ∈ ops, op.Valid) :
    Decoder.decodeAll d (e.encodeAll batches) = .ok batches := by
  induction batches generalizing e d with
  | nil => rfl
  | cons ops batches ih =>
    simp only [List.forall_mem_cons] at hvalid
    obtain ⟨d', hstep, hdec⟩ := decodeOps_encodeOps none h hvalid.1
    have hdec' : Decoder.decode d (e.encode ops).2 = .ok (d', ops) := hdec
    have hstep' : InStep (e.encode ops).1 d' := hstep
    rw [Encoder.encodeAll, Decoder.decodeAll, hdec', ok_bind]
    simp only
    rw [ih hstep' hvalid.2]
    rfl

/-- Batches from a base batch on, decoded by any decoder. -/
theorem decodeAll_of_isBase {base : List Op} {batches : List (List Op)}
    (hbase : isBase base = true) (hvalid : ∀ ops ∈ base :: batches, ∀ op ∈ ops, op.Valid)
    (e : Encoder) (d : Decoder) :
    Decoder.decodeAll d (e.encodeAll (base :: batches)) = .ok (base :: batches) := by
  simp only [List.forall_mem_cons] at hvalid
  obtain ⟨d', hstep, hdec⟩ := decode_base hbase hvalid.1 e d
  rw [Encoder.encodeAll, Decoder.decodeAll, hdec, ok_bind]
  simp only
  rw [decodeAll_encodeAll hstep hvalid.2]
  rfl

/-- The encoder as it stands after some batches. -/
def Encoder.after (e : Encoder) : List (List Op) → Encoder
  | [] => e
  | ops :: batches => (e.encode ops).1.after batches

theorem encodeAll_append (e : Encoder) (batches batches' : List (List Op)) :
    e.encodeAll (batches ++ batches') = e.encodeAll batches ++ (e.after batches).encodeAll batches' := by
  induction batches generalizing e with
  | nil => rfl
  | cons ops batches ih => simp [Encoder.encodeAll, Encoder.after, ih]

theorem length_encodeAll (e : Encoder) (batches : List (List Op)) :
    (e.encodeAll batches).length = batches.length := by
  induction batches generalizing e with
  | nil => rfl
  | cons ops batches ih => simp [Encoder.encodeAll, ih]

/-- **Wire codec round trip with recovery.** Batches of valid ops come back from one decoder, and from a
fresh decoder started at any base batch among them. -/
theorem decode_encode (batches : List (List Op))
    (hvalid : ∀ ops ∈ batches, ∀ op ∈ ops, assertValidOp op = .ok ()) :
    Decoder.decodeAll decoder (encoder.encodeAll batches) = .ok batches ∧
      ∀ earlier base later, batches = earlier ++ base :: later → isBase base = true →
        Decoder.decodeAll decoder ((encoder.encodeAll batches).drop earlier.length)
          = .ok (base :: later) := by
  refine ⟨decodeAll_encodeAll inStep_initial hvalid, ?_⟩
  rintro earlier base later rfl hisBase
  rw [encodeAll_append, ← length_encodeAll encoder earlier, List.drop_left]
  refine decodeAll_of_isBase hisBase (fun ops hops => ?_) _ _
  exact hvalid ops (List.mem_append_right _ hops)

/-- One path used three times, then a second base batch. -/
def sampleBatches : List (List Op) :=
  let path : Path := [.key (JsString.ofAscii "xs"), .index 0]
  [[.r (.object []), .s path (.number 1), .p [] 0 0 []],
    [.s path (.number 2), .t path 1],
    [.r .null, .d path],
    [.a path (JsString.ofAscii "y")]]

theorem decode_encode_sampleBatches :
    Decoder.decodeAll decoder (encoder.encodeAll sampleBatches) = .ok sampleBatches ∧
      ∀ earlier base later, sampleBatches = earlier ++ base :: later → isBase base = true →
        Decoder.decodeAll decoder ((encoder.encodeAll sampleBatches).drop earlier.length)
          = .ok (base :: later) :=
  decode_encode sampleBatches (by
    simp only [sampleBatches, List.forall_mem_cons, List.not_mem_nil, false_imp_iff, implies_true,
      and_true]
    exact ⟨⟨rfl, rfl, rfl⟩, ⟨rfl, rfl⟩, ⟨rfl, rfl⟩, rfl⟩)

end Phi.Delta
