import Phi.Delta.Codec

/-!
# Wire batches as they arrive

Model of `assertValidOp`, `assertValidWireOp` and `decoder` of `packages/chord/src/delta/index.ts` over what a boundary
delivers: any JSON value, from which nothing may be concluded before it has been checked. The checks accept the texts of
ops and of wire ops and nothing else (`assertValidOp_eq_ok`, `assertValidWireOp_eq_ok`), so on whatever it accepts the
decoder does what the decoder of wire ops does (`decodeOp_json`). What it returns are valid ops, in every state that
batches can leave it in, those included that threw half way.
-/

namespace Phi.Delta.Wire

inductive WireError where
  | typeError (message : String)
  | unknownVerb (verb : Json)
  | unsafePathError (segment : Json)
  | pathError (path : Json)

/-! ## Verbs -/

/-- The first element of an op. -/
inductive Verb where
  | r
  | s
  | d
  | a
  | t
  | p
  | define
deriving DecidableEq

def Verb.text : Verb → JsString
  | .r => JsString.ofAscii "r"
  | .s => JsString.ofAscii "s"
  | .d => JsString.ofAscii "d"
  | .a => JsString.ofAscii "a"
  | .t => JsString.ofAscii "t"
  | .p => JsString.ofAscii "p"
  | .define => JsString.ofAscii "#"

def verb? : Json → Option Verb
  | .string s => [Verb.r, .s, .d, .a, .t, .p, .define].find? fun verb => verb.text = s
  | _ => none

def tuple (verb : Verb) (args : List Json) : Json := .array (.string verb.text :: args)

theorem verb?_text (verb : Verb) : verb? (.string verb.text) = some verb := by
  cases verb <;> rfl

theorem verb?_eq_some {v : Json} {verb : Verb} (h : verb? v = some verb) : v = .string verb.text := by
  cases v with
  | string s =>
    have htext := List.find?_some h
    rw [of_decide_eq_true htext]
  | null | bool _ | number _ | array _ | object _ => cases h

/-! ## Checks -/

/-- `Number.isInteger(value) && value >= 0`. -/
def isCount : Json → Bool
  | .number q => q.den = 1 && 0 ≤ q.num
  | _ => false

def assertCount (count : Json) (message : String) : Except WireError Unit :=
  if isCount count then .ok () else .error (.typeError message)

def assertSafeSegment (seg : Json) : Except WireError Unit :=
  match seg with
  | .string k => if RESERVED_SEGMENTS.contains k then .error (.unsafePathError seg) else .ok ()
  | _ => if isCount seg = false then .error (.unsafePathError seg) else .ok ()

def assertSafePath : List Json → Except WireError Unit
  | [] => .ok ()
  | seg :: path => assertSafeSegment seg >>= fun _ => assertSafePath path

def assertPathArg (p : Json) (nonEmpty : Bool) : Except WireError Unit :=
  match p with
  | .array path =>
    if nonEmpty ∧ path = [] then .error (.typeError "path is empty") else assertSafePath path
  | _ => .error (.typeError "path is not an array")

def assertSplice (index remove items : Json) : Except WireError Unit := do
  assertCount index "p index"
  assertCount remove "p remove"
  if items.isArray then .ok () else .error (.typeError "p items")

/-- What `assertValidOp` checks behind the verb. -/
def assertValidArgs (verb : Verb) (args : List Json) : Except WireError Unit :=
  match verb, args with
  | .r, [_] => .ok ()
  | .r, _ => .error (.typeError "r arity")
  | .s, [path, _] => assertPathArg path true
  | .s, _ => .error (.typeError "s arity")
  | .d, [path] => assertPathArg path true
  | .d, _ => .error (.typeError "d arity")
  | .a, [path, .string _] => assertPathArg path true
  | .a, _ => .error (.typeError "a shape")
  | .t, [path, count] => assertCount count "t shape" >>= fun _ => assertPathArg path true
  | .t, _ => .error (.typeError "t shape")
  | .p, [path, index, remove, items] => assertPathArg path false >>= fun _ => assertSplice index remove items
  | .p, _ => .error (.typeError "p arity")
  | .define, _ => .error (.unknownVerb (.string verb.text))

def assertValidOp : Json → Except WireError Unit
  | .array (first :: args) =>
    match verb? first with
    | some verb => assertValidArgs verb args
    | none => .error (.unknownVerb first)
  | _ => .error (.typeError "op is not a tuple")

/-- `okRef(r)`. -/
def okRef : Json → Except WireError Unit
  | .number q => assertCount (.number q) "bad path id"
  | .array path => assertSafePath path
  | _ => .error (.typeError "path is not an array")

def assertText : Json → Except WireError Unit
  | .string _ => .ok ()
  | _ => .error (.typeError "a value")

/-- What `assertValidWireOp` checks behind the verb: ids and short forms are legal here. -/
def assertValidWireArgs (verb : Verb) (args : List Json) : Except WireError Unit :=
  match verb, args with
  | .r, [_] => .ok ()
  | .r, _ => .error (.typeError "r arity")
  | .s, [ref, _] => okRef ref
  | .s, [_] => .ok ()
  | .s, _ => .error (.typeError "s arity")
  | .d, [ref] => okRef ref
  | .d, [] => .ok ()
  | .d, _ => .error (.typeError "d arity")
  | .a, [ref, text] => okRef ref >>= fun _ => assertText text
  | .a, [text] => assertText text
  | .a, _ => .error (.typeError "a arity")
  | .t, [ref, count] => okRef ref >>= fun _ => assertCount count "t count"
  | .t, [count] => assertCount count "t count"
  | .t, _ => .error (.typeError "t arity")
  | .p, [ref, index, remove, items] => okRef ref >>= fun _ => assertSplice index remove items
  | .p, [index, remove, items] => assertSplice index remove items
  | .p, _ => .error (.typeError "p arity")
  | .define, [id, .array path] => assertCount id "# shape" >>= fun _ => assertSafePath path
  | .define, _ => .error (.typeError "# shape")

def assertValidWireOp : Json → Except WireError Unit
  | .array (first :: args) =>
    match verb? first with
    | some verb => assertValidWireArgs verb args
    | none => .error (.unknownVerb first)
  | _ => .error (.typeError "op is not a tuple")

/-! ## Decoding -/

/-- The paths a decoder knows by id, as they came. -/
abbrev Paths := Table ℚ (List Json)

/-- Arity tells whether a reference is there. -/
def isShort (verb : Verb) (args : List Json) : Bool :=
  match verb with
  | .d => args.length = 0
  | .p => args.length = 3
  | _ => args.length = 1

/-- The path an inline or numbered reference stands for. -/
def resolveRef (paths : Paths) : Option Json → Except WireError (List Json)
  | some (.number id) =>
    match paths.get id with
    | none => .error (.pathError (.number id))
    | some path => .ok path
  | some (.array path) => .ok path
  -- the check has refused anything else
  | _ => .error (.typeError "path is not an array")

/-- The path of an op: that of the op before it, or the one its reference stands for. -/
def resolvePath (paths : Paths) (previous : Option (List Json)) (short : Bool) (ref : Option Json) :
    Except WireError (List Json) :=
  if short then
    match previous with
    | none => .error (.pathError (.array []))
    | some path => .ok path
  else resolveRef paths ref

/-- What `decode` does with a wire op that passed the check; `previous` is the last path in the batch. -/
def decodeArgs (paths : Paths) (previous : Option (List Json)) (verb : Verb) (args : List Json) :
    Except WireError (Paths × Option (List Json) × List Json) :=
  match verb, args with
  | .define, [.number id, .array path] => do
    assertSafePath path
    return (paths.set id path, previous, [])
  | .define, _ => .error (.typeError "# shape")
  | .r, args => return ([], none, [tuple .r args])
  | verb, args => do
    let short := isShort verb args
    let path ← resolvePath paths previous short args.head?
    if verb ≠ .p ∧ path = [] then .error (.pathError (.array path))
    else return (paths, some path, [tuple verb (.array path :: if short then args else args.tail)])

def decodeOp (paths : Paths) (previous : Option (List Json)) (op : Json) :
    Except WireError (Paths × Option (List Json) × List Json) := do
  assertValidWireOp op
  match op with
  | .array (first :: args) =>
    match verb? first with
    | some verb => decodeArgs paths previous verb args
    | none => .error (.unknownVerb first)
  | _ => .error (.typeError "op is not a tuple")

/-- The loop of `decode`. The paths defined before a throw stay defined. -/
def decodeOps (paths : Paths) (previous : Option (List Json)) : List Json → Paths × Except WireError (List Json)
  | [] => (paths, .ok [])
  | op :: wire =>
    match decodeOp paths previous op with
    | .error e => (paths, .error e)
    | .ok (paths, previous, ops) =>
      let (paths, rest) := decodeOps paths previous wire
      (paths, rest.map (ops ++ ·))

/-- `decode(wire)` on any value. A string is iterable: its characters are no tuples. -/
def decode (paths : Paths) : Json → Paths × Except WireError (List Json)
  | .array wire => decodeOps paths none wire
  | .string [] => (paths, .ok [])
  | .string _ => (paths, .error (.typeError "op is not a tuple"))
  | _ => (paths, .error (.typeError "wire is not iterable"))

/-- The states of a decoder behind any batches. -/
inductive Reachable : Paths → Prop
  | init : Reachable []
  | decode {paths : Paths} (h : Reachable paths) (wire : Json) : Reachable (decode paths wire).1

/-! ## The texts of ops -/

def segJson : Seg → Json
  | .key k => .string k
  | .index n => .number n

def pathJson (path : Path) : List Json := path.map segJson

def opJson : Op → Json
  | .r value => tuple .r [value]
  | .s path value => tuple .s [.array (pathJson path), value]
  | .d path => tuple .d [.array (pathJson path)]
  | .a path text => tuple .a [.array (pathJson path), .string text]
  | .t path count => tuple .t [.array (pathJson path), .number count]
  | .p path index remove items => tuple .p [.array (pathJson path), .number index, .number remove, .array items]

def refJson : Option PathRef → List Json
  | none => []
  | some (.path path) => [.array (pathJson path)]
  | some (.id id) => [.number id]

def wireOpJson : WireOp → Json
  | .r value => tuple .r [value]
  | .s ref value => tuple .s (refJson ref ++ [value])
  | .d ref => tuple .d (refJson ref)
  | .a ref text => tuple .a (refJson ref ++ [.string text])
  | .t ref count => tuple .t (refJson ref ++ [.number count])
  | .p ref index remove items => tuple .p (refJson ref ++ [.number index, .number remove, .array items])
  | .define id path => tuple .define [.number id, .array (pathJson path)]

/-! ## What the checks accept -/

theorem isCount_eq_true {v : Json} : isCount v = true ↔ ∃ n : ℕ, v = .number n := by
  constructor
  · intro h
    cases v with
    | number q =>
      simp only [isCount, Bool.and_eq_true, decide_eq_true_eq] at h
      refine ⟨q.num.toNat, congrArg Json.number ?_⟩
      have hnum : ((q.num.toNat : ℤ) : ℚ) = (q.num : ℚ) := by rw [Int.toNat_of_nonneg h.2]
      rw [(Rat.den_eq_one_iff q).mp h.1] at hnum
      exact_mod_cast hnum.symm
    | null | bool _ | string _ | array _ | object _ => cases h
  · rintro ⟨n, rfl⟩
    simp [isCount]

theorem assertCount_eq_ok {v : Json} {message : String} :
    assertCount v message = .ok () ↔ ∃ n : ℕ, v = .number n := by
  rw [← isCount_eq_true, assertCount]
  split_ifs with h
  · exact iff_of_true rfl h
  · exact iff_of_false (by simp) h

/-- Two checks, one after the other. -/
theorem seq_eq_ok {ε : Type} {first second : Except ε Unit} :
    (first >>= fun _ => second) = .ok () ↔ first = .ok () ∧ second = .ok () := by
  rw [bind_eq_ok]
  exact ⟨fun ⟨_, h⟩ => h, fun h => ⟨(), h⟩⟩

theorem assertSafeSegment_eq_ok {v : Json} :
    assertSafeSegment v = .ok () ↔ ∃ seg, v = segJson seg ∧ Seg.isSafe seg = true := by
  unfold assertSafeSegment
  cases v with
  | string k =>
    rw [ite_error_eq_ok]
    constructor
    · rintro ⟨hk, -⟩
      exact ⟨.key k, rfl, by simpa [Seg.isSafe] using hk⟩
    · rintro ⟨seg, heq, hsafe⟩
      cases seg with
      | key k' =>
        cases heq
        exact ⟨by simpa [Seg.isSafe] using hsafe, rfl⟩
      | index n => cases heq
  | number q =>
    rw [ite_error_eq_ok, Bool.not_eq_false, isCount_eq_true, and_iff_left rfl]
    constructor
    · rintro ⟨n, hn⟩
      exact ⟨.index n, hn, rfl⟩
    · rintro ⟨seg, heq, -⟩
      cases seg with
      | key k => cases heq
      | index n => exact ⟨n, heq⟩
  | null | bool _ | array _ | object _ =>
    refine iff_of_false (by simp [isCount]) ?_
    rintro ⟨seg, heq, -⟩
    cases seg <;> cases heq

theorem assertSafePath_eq_ok {xs : List Json} :
    assertSafePath xs = .ok () ↔ ∃ path, xs = pathJson path ∧ SafePath path := by
  induction xs with
  | nil => exact iff_of_true rfl ⟨[], rfl, by simp [SafePath]⟩
  | cons x xs ih =>
    rw [assertSafePath, seq_eq_ok, ih, assertSafeSegment_eq_ok]
    constructor
    · rintro ⟨⟨seg, rfl, hseg⟩, path, rfl, hsafe⟩
      exact ⟨seg :: path, rfl, List.forall_mem_cons.mpr ⟨hseg, hsafe⟩⟩
    · rintro ⟨path, heq, hsafe⟩
      cases path with
      | nil => cases heq
      | cons seg path =>
        obtain ⟨rfl, rfl⟩ := List.cons.inj heq
        rw [SafePath, List.forall_mem_cons] at hsafe
        exact ⟨⟨seg, rfl, hsafe.1⟩, path, rfl, hsafe.2⟩

theorem assertPathArg_eq_ok {v : Json} {nonEmpty : Bool} :
    assertPathArg v nonEmpty = .ok () ↔
      ∃ path, v = .array (pathJson path) ∧ Delta.assertPathArg path nonEmpty = .ok () := by
  have hnil : ∀ path, pathJson path = [] ↔ path = [] := fun path => List.map_eq_nil_iff
  cases v with
  | array xs =>
    rw [assertPathArg, ite_error_eq_ok, assertSafePath_eq_ok]
    constructor
    · rintro ⟨hempty, path, rfl, hsafe⟩
      refine ⟨path, rfl, Delta.assertPathArg_eq_ok.mpr ⟨fun hne hpath => hempty ⟨hne, ?_⟩, hsafe⟩⟩
      exact (hnil path).mpr hpath
    · rintro ⟨path, heq, hvalid⟩
      obtain rfl := Json.array.inj heq
      obtain ⟨hne, hsafe⟩ := Delta.assertPathArg_eq_ok.mp hvalid
      exact ⟨fun hempty => hne hempty.1 ((hnil path).mp hempty.2), path, rfl, hsafe⟩
  | null | bool _ | number _ | string _ | object _ => exact iff_of_false (by simp [assertPathArg]) (by simp)

theorem assertSplice_eq_ok {index remove items : Json} :
    assertSplice index remove items = .ok () ↔
      ∃ (i r : ℕ) (xs : List Json), index = .number i ∧ remove = .number r ∧ items = .array xs := by
  have hitems : (if items.isArray then (.ok () : Except WireError Unit) else .error (.typeError "p items")) = .ok () ↔
      ∃ xs, items = .array xs := by
    cases items <;> simp [Json.isArray]
  rw [assertSplice, seq_eq_ok, seq_eq_ok, assertCount_eq_ok, assertCount_eq_ok, hitems]
  constructor
  · rintro ⟨⟨i, hi⟩, ⟨r, hr⟩, xs, hxs⟩
    exact ⟨i, r, xs, hi, hr, hxs⟩
  · rintro ⟨i, r, xs, hi, hr, hxs⟩
    exact ⟨⟨i, hi⟩, ⟨r, hr⟩, xs, hxs⟩

/-- A reference on the wire whose path, if it has one, is safe. -/
def SafeRef : Option PathRef → Prop
  | some (.path path) => SafePath path
  | _ => True

theorem okRef_eq_ok {v : Json} : okRef v = .ok () ↔ ∃ ref, [v] = refJson (some ref) ∧ SafeRef (some ref) := by
  cases v with
  | number q =>
    rw [okRef, assertCount_eq_ok]
    constructor
    · rintro ⟨n, hn⟩
      exact ⟨.id n, congrArg (fun x => [x]) hn, trivial⟩
    · rintro ⟨ref, heq, -⟩
      cases ref with
      | path path => cases heq
      | id n => exact ⟨n, (List.cons.inj heq).1⟩
  | array xs =>
    rw [okRef, assertSafePath_eq_ok]
    constructor
    · rintro ⟨path, rfl, hsafe⟩
      exact ⟨.path path, rfl, hsafe⟩
    · rintro ⟨ref, heq, hsafe⟩
      cases ref with
      | path path => exact ⟨path, Json.array.inj (List.cons.inj heq).1, hsafe⟩
      | id n => cases heq
  | null | bool _ | string _ | object _ =>
    refine iff_of_false (by simp [okRef]) ?_
    rintro ⟨ref, heq, -⟩
    cases ref <;> cases heq

theorem assertText_eq_ok {v : Json} : assertText v = .ok () ↔ ∃ text, v = .string text := by
  cases v <;> simp [assertText]

theorem safeRef_iff {ref : Option PathRef} : SafeRef ref ↔
    (match ref with | some (.path path) => Delta.assertSafePath path | _ => .ok ()) = .ok () := by
  rcases ref with _ | (path | id)
  · exact iff_of_true trivial rfl
  · exact Delta.assertSafePath_eq_ok.symm
  · exact iff_of_true trivial rfl

theorem assertValidOp_tuple (verb : Verb) (args : List Json) :
    assertValidOp (tuple verb args) = assertValidArgs verb args := by
  simp only [assertValidOp, tuple, verb?_text]

theorem assertValidWireOp_tuple (verb : Verb) (args : List Json) :
    assertValidWireOp (tuple verb args) = assertValidWireArgs verb args := by
  simp only [assertValidWireOp, tuple, verb?_text]

/-- `assertValidOp` accepts the texts of valid ops, and nothing else. -/
theorem assertValidOp_eq_ok {v : Json} : assertValidOp v = .ok () ↔ ∃ op : Op, v = opJson op ∧ op.Valid := by
  constructor
  · intro h
    unfold assertValidOp at h
    split at h
    · next first args =>
      split at h
      · next verb hverb =>
        obtain rfl := verb?_eq_some hverb
        unfold assertValidArgs at h
        split at h <;> try cases h
        · next value => exact ⟨.r value, rfl, rfl⟩
        · next path value =>
          obtain ⟨path, rfl, hvalid⟩ := assertPathArg_eq_ok.mp h
          exact ⟨.s path value, rfl, hvalid⟩
        · next path =>
          obtain ⟨path, rfl, hvalid⟩ := assertPathArg_eq_ok.mp h
          exact ⟨.d path, rfl, hvalid⟩
        · next path text =>
          obtain ⟨path, rfl, hvalid⟩ := assertPathArg_eq_ok.mp h
          exact ⟨.a path text, rfl, hvalid⟩
        · next path count =>
          obtain ⟨hcount, hpath⟩ := seq_eq_ok.mp h
          obtain ⟨n, rfl⟩ := assertCount_eq_ok.mp hcount
          obtain ⟨path, rfl, hvalid⟩ := assertPathArg_eq_ok.mp hpath
          exact ⟨.t path n, rfl, hvalid⟩
        · next path index remove items =>
          obtain ⟨hpath, hsplice⟩ := seq_eq_ok.mp h
          obtain ⟨path, rfl, hvalid⟩ := assertPathArg_eq_ok.mp hpath
          obtain ⟨i, r, xs, rfl, rfl, rfl⟩ := assertSplice_eq_ok.mp hsplice
          exact ⟨.p path i r xs, rfl, hvalid⟩
      · cases h
    · cases h
  · rintro ⟨op, rfl, hvalid⟩
    have hcount : ∀ (n : ℕ) message, assertCount (.number n) message = .ok () :=
      fun n message => assertCount_eq_ok.mpr ⟨n, rfl⟩
    have hpath : ∀ {path : Path} {nonEmpty : Bool}, Delta.assertPathArg path nonEmpty = .ok () →
        assertPathArg (.array (pathJson path)) nonEmpty = .ok () := fun h => assertPathArg_eq_ok.mpr ⟨_, rfl, h⟩
    cases op <;> simp only [opJson, assertValidOp_tuple, assertValidArgs]
    case s => exact hpath hvalid
    case d => exact hpath hvalid
    case a => exact hpath hvalid
    case t => exact seq_eq_ok.mpr ⟨hcount _ _, hpath hvalid⟩
    case p => exact seq_eq_ok.mpr ⟨hpath hvalid, assertSplice_eq_ok.mpr ⟨_, _, _, rfl, rfl, rfl⟩⟩

/-- A reference in front of the other arguments. -/
theorem exists_ref {v : Json} (h : okRef v = .ok ()) (args : List Json) :
    ∃ ref, v :: args = refJson ref ++ args ∧ SafeRef ref := by
  obtain ⟨ref, heq, hsafe⟩ := okRef_eq_ok.mp h
  exact ⟨some ref, congrArg (· ++ args) heq, hsafe⟩

/-- The text of a reference is one value, which the check of references accepts. -/
theorem okRef_of_safeRef {ref : PathRef} (h : SafeRef (some ref)) :
    ∃ v, refJson (some ref) = [v] ∧ okRef v = .ok () := by
  cases ref with
  | path path => exact ⟨_, rfl, okRef_eq_ok.mpr ⟨.path path, rfl, h⟩⟩
  | id id => exact ⟨_, rfl, okRef_eq_ok.mpr ⟨.id id, rfl, h⟩⟩

/-- The arguments of a wire op that the check accepts. -/
theorem assertValidWireArgs_eq_ok {verb : Verb} {args : List Json} (h : assertValidWireArgs verb args = .ok ()) :
    ∃ w : WireOp, tuple verb args = wireOpJson w ∧ Delta.assertValidWireOp w = .ok () := by
  unfold assertValidWireArgs at h
  split at h <;> try cases h
  · next value => exact ⟨.r value, rfl, rfl⟩
  · next ref value =>
    obtain ⟨ref, heq, hsafe⟩ := exists_ref h [value]
    exact ⟨.s ref value, congrArg (tuple .s) heq, safeRef_iff.mp hsafe⟩
  · next value => exact ⟨.s none value, rfl, rfl⟩
  · next ref =>
    obtain ⟨ref, heq, hsafe⟩ := exists_ref h []
    rw [List.append_nil] at heq
    exact ⟨.d ref, congrArg (tuple .d) heq, safeRef_iff.mp hsafe⟩
  · exact ⟨.d none, rfl, rfl⟩
  · next ref text =>
    obtain ⟨href, htext⟩ := seq_eq_ok.mp h
    obtain ⟨text, rfl⟩ := assertText_eq_ok.mp htext
    obtain ⟨ref, heq, hsafe⟩ := exists_ref href [.string text]
    exact ⟨.a ref text, congrArg (tuple .a) heq, safeRef_iff.mp hsafe⟩
  · next text =>
    obtain ⟨text, rfl⟩ := assertText_eq_ok.mp h
    exact ⟨.a none text, rfl, rfl⟩
  · next ref count =>
    obtain ⟨href, hcount⟩ := seq_eq_ok.mp h
    obtain ⟨n, rfl⟩ := assertCount_eq_ok.mp hcount
    obtain ⟨ref, heq, hsafe⟩ := exists_ref href [.number n]
    exact ⟨.t ref n, congrArg (tuple .t) heq, safeRef_iff.mp hsafe⟩
  · next count =>
    obtain ⟨n, rfl⟩ := assertCount_eq_ok.mp h
    exact ⟨.t none n, rfl, rfl⟩
  · next ref index remove items =>
    obtain ⟨href, hsplice⟩ := seq_eq_ok.mp h
    obtain ⟨i, r, xs, rfl, rfl, rfl⟩ := assertSplice_eq_ok.mp hsplice
    obtain ⟨ref, heq, hsafe⟩ := exists_ref href [.number i, .number r, .array xs]
    exact ⟨.p ref i r xs, congrArg (tuple .p) heq, safeRef_iff.mp hsafe⟩
  · next index remove items =>
    obtain ⟨i, r, xs, rfl, rfl, rfl⟩ := assertSplice_eq_ok.mp h
    exact ⟨.p none i r xs, rfl, rfl⟩
  · next id path =>
    obtain ⟨hid, hpath⟩ := seq_eq_ok.mp h
    obtain ⟨n, rfl⟩ := assertCount_eq_ok.mp hid
    obtain ⟨path, rfl, hsafe⟩ := assertSafePath_eq_ok.mp hpath
    exact ⟨.define n path, rfl, Delta.assertSafePath_eq_ok.mpr hsafe⟩

theorem assertValidWireOp_json {w : WireOp} (h : Delta.assertValidWireOp w = .ok ()) :
    assertValidWireOp (wireOpJson w) = .ok () := by
  have hcount : ∀ (n : ℕ) message, assertCount (.number n) message = .ok () :=
    fun n message => assertCount_eq_ok.mpr ⟨n, rfl⟩
  have hsplice : ∀ (i r : ℕ) xs, assertSplice (.number i) (.number r) (.array xs) = .ok () :=
    fun i r xs => assertSplice_eq_ok.mpr ⟨i, r, xs, rfl, rfl, rfl⟩
  cases w with
  | r value => rfl
  | s ref value =>
    have href := safeRef_iff.mpr h
    rw [wireOpJson, assertValidWireOp_tuple]
    cases ref with
    | none => exact rfl
    | some ref =>
      obtain ⟨v, hv, hok⟩ := okRef_of_safeRef href
      rw [hv]
      exact hok
  | d ref =>
    have href := safeRef_iff.mpr h
    rw [wireOpJson, assertValidWireOp_tuple]
    cases ref with
    | none => exact rfl
    | some ref =>
      obtain ⟨v, hv, hok⟩ := okRef_of_safeRef href
      rw [hv]
      exact hok
  | a ref text =>
    have href := safeRef_iff.mpr h
    rw [wireOpJson, assertValidWireOp_tuple]
    cases ref with
    | none => exact rfl
    | some ref =>
      obtain ⟨v, hv, hok⟩ := okRef_of_safeRef href
      rw [hv]
      exact seq_eq_ok.mpr ⟨hok, rfl⟩
  | t ref count =>
    have href := safeRef_iff.mpr h
    rw [wireOpJson, assertValidWireOp_tuple]
    cases ref with
    | none => exact hcount count _
    | some ref =>
      obtain ⟨v, hv, hok⟩ := okRef_of_safeRef href
      rw [hv]
      exact seq_eq_ok.mpr ⟨hok, hcount count _⟩
  | p ref index remove items =>
    have href := safeRef_iff.mpr h
    rw [wireOpJson, assertValidWireOp_tuple]
    cases ref with
    | none => exact hsplice index remove items
    | some ref =>
      obtain ⟨v, hv, hok⟩ := okRef_of_safeRef href
      rw [hv]
      exact seq_eq_ok.mpr ⟨hok, hsplice index remove items⟩
  | define id path =>
    rw [wireOpJson, assertValidWireOp_tuple]
    exact seq_eq_ok.mpr ⟨hcount id _, assertSafePath_eq_ok.mpr ⟨path, rfl, Delta.assertSafePath_eq_ok.mp h⟩⟩

/-- `assertValidWireOp` accepts the texts of wire ops whose paths are safe, and nothing else. -/
theorem assertValidWireOp_eq_ok {v : Json} :
    assertValidWireOp v = .ok () ↔ ∃ w : WireOp, v = wireOpJson w ∧ Delta.assertValidWireOp w = .ok () := by
  constructor
  · intro h
    unfold assertValidWireOp at h
    split at h
    · next first args =>
      split at h
      · next verb hverb =>
        obtain rfl := verb?_eq_some hverb
        exact assertValidWireArgs_eq_ok h
      · cases h
    · cases h
  · rintro ⟨w, rfl, hvalid⟩
    exact assertValidWireOp_json hvalid

/-! ## The decoder of wire ops -/

/-- The same paths under the same ids. -/
def Mirrors (paths : Paths) (d : Decoder) : Prop := ∀ n : ℕ, paths.get n = (d.get n).map pathJson

theorem Mirrors.set {paths : Paths} {d : Decoder} (h : Mirrors paths d) (id : ℕ) (path : Path) :
    Mirrors (Table.set paths id (pathJson path)) (Table.set d id path) := by
  intro n
  rw [Table.get_set, Table.get_set, h n]
  by_cases hid : id = n
  · rw [if_pos hid, if_pos (congrArg Nat.cast hid), Option.map_some]
  · rw [if_neg hid, if_neg (fun heq => hid (Nat.cast_injective heq))]

/-- Both decoders return the same, or both throw. -/
def Agree : Except DeltaError (Decoder × Option Path × List Op) →
    Except WireError (Paths × Option (List Json) × List Json) → Prop
  | .ok (d, previous, ops), .ok (paths, previous', ops') =>
    Mirrors paths d ∧ previous' = previous.map pathJson ∧ ops' = ops.map opJson
  | .error _, .error _ => True
  | _, _ => False

theorem resolvePath_json {paths : Paths} {d : Decoder} (h : Mirrors paths d) (previous : Option Path)
    (ref : Option PathRef) (args : List Json) :
    (∃ path, Delta.resolveRef d previous ref = .ok path ∧
        resolvePath paths (previous.map pathJson) ref.isNone (refJson ref ++ args).head? = .ok (pathJson path)) ∨
      ∃ e e', Delta.resolveRef d previous ref = .error e ∧
        resolvePath paths (previous.map pathJson) ref.isNone (refJson ref ++ args).head? = .error e' := by
  rcases ref with _ | (path | id)
  · cases previous with
    | none => exact .inr ⟨_, _, rfl, rfl⟩
    | some path => exact .inl ⟨path, rfl, rfl⟩
  · exact .inl ⟨path, rfl, rfl⟩
  · have hid := h id
    simp only [Delta.resolveRef, resolvePath, refJson, List.cons_append, List.head?_cons, resolveRef,
      Option.isNone_some, Bool.false_eq_true, if_false, hid]
    cases d.get id with
    | none => exact .inr ⟨_, _, rfl, rfl⟩
    | some path => exact .inl ⟨path, rfl, rfl⟩

theorem decodeOp_tuple {paths : Paths} {previous : Option (List Json)} {verb : Verb} {args : List Json}
    (h : assertValidWireOp (tuple verb args) = .ok ()) :
    decodeOp paths previous (tuple verb args) = decodeArgs paths previous verb args := by
  rw [decodeOp.eq_def, h, ok_bind]
  simp only [tuple, verb?_text]

/-- One op that refers to a path: `payload` are its other arguments. -/
theorem decodeOp_ref {paths : Paths} {d : Decoder} (h : Mirrors paths d) (previous : Option Path) {w : WireOp}
    {verb : Verb} {ref : Option PathRef} {payload : List Json} (hvalid : Delta.assertValidWireOp w = .ok ())
    (hjson : wireOpJson w = tuple verb (refJson ref ++ payload)) (hverb : verb ≠ .r ∧ verb ≠ .define)
    (hshort : isShort verb (refJson ref ++ payload) = ref.isNone)
    (hdecode : Delta.decodeOp d previous w = do
      let path ← Delta.resolveRef d previous ref
      let op ← w.toOp path
      return (d, some path, [op]))
    (hop : ∀ path, (∃ e, w.toOp path = .error e ∧ verb ≠ .p ∧ path = []) ∨
      ∃ op, w.toOp path = .ok op ∧ opJson op = tuple verb (.array (pathJson path) :: payload) ∧
        ¬(verb ≠ .p ∧ path = [])) :
    Agree (Delta.decodeOp d previous w) (decodeOp paths (previous.map pathJson) (wireOpJson w)) := by
  have hcheck := assertValidWireOp_json hvalid
  have htail : (if ref.isNone then refJson ref ++ payload else (refJson ref ++ payload).tail) = payload := by
    rcases ref with _ | (path | id) <;> rfl
  have hargs : ∀ args, decodeArgs paths (previous.map pathJson) verb args = (do
      let path ← resolvePath paths (previous.map pathJson) (isShort verb args) args.head?
      if verb ≠ .p ∧ path = [] then .error (.pathError (.array path))
      else return (paths, some path, [tuple verb (.array path :: if isShort verb args then args else args.tail)])) := by
    intro args
    unfold decodeArgs
    split
    · exact absurd rfl hverb.2
    · exact absurd rfl hverb.2
    · exact absurd rfl hverb.1
    · rfl
  rw [hjson] at hcheck
  rw [hdecode, hjson, decodeOp_tuple hcheck, hargs, hshort, htail]
  rcases resolvePath_json h previous ref payload with ⟨path, href, hraw⟩ | ⟨e, e', href, hraw⟩
  · rw [href, hraw, ok_bind, ok_bind]
    have hnil : pathJson path = [] ↔ path = [] := List.map_eq_nil_iff
    rcases hop path with ⟨e, herror, hempty⟩ | ⟨op, hok, hopJson, hnonempty⟩
    · rw [herror, if_pos ⟨hempty.1, hnil.mpr hempty.2⟩]
      trivial
    · rw [hok, if_neg fun hempty => hnonempty ⟨hempty.1, hnil.mp hempty.2⟩]
      exact ⟨h, rfl, by rw [← hopJson]; rfl⟩
  · rw [href, hraw]
    trivial

/-- The path of an op that must not be empty. -/
theorem toOp_nonEmpty {verb : Verb} (hverb : verb ≠ .p) {path : Path} {op : Op} {payload : List Json}
    (hop : opJson op = tuple verb (.array (pathJson path) :: payload)) :
    (∃ e, nonEmptyOp path op = .error e ∧ verb ≠ .p ∧ path = []) ∨
      ∃ op', nonEmptyOp path op = .ok op' ∧ opJson op' = tuple verb (.array (pathJson path) :: payload) ∧
        ¬(verb ≠ .p ∧ path = []) := by
  unfold nonEmptyOp
  split_ifs with hpath
  · exact .inl ⟨_, rfl, hverb, hpath⟩
  · exact .inr ⟨op, rfl, hop, fun h => hpath h.2⟩

/-- On the text of a wire op, the decoder does what the decoder of wire ops does. -/
theorem decodeOp_json {paths : Paths} {d : Decoder} (h : Mirrors paths d) (previous : Option Path) {w : WireOp}
    (hvalid : Delta.assertValidWireOp w = .ok ()) :
    Agree (Delta.decodeOp d previous w) (decodeOp paths (previous.map pathJson) (wireOpJson w)) := by
  have hshort : ∀ {verb : Verb} {payload : List Json}, isShort verb payload = true →
      ∀ ref : Option PathRef, isShort verb (refJson ref ++ payload) = ref.isNone := by
    intro verb payload hpayload ref
    rcases ref with _ | (path | id)
    · exact hpayload
    · cases verb <;> simp_all [isShort, refJson]
    · cases verb <;> simp_all [isShort, refJson]
  cases w with
  | r value => exact ⟨fun n => rfl, rfl, rfl⟩
  | define id path =>
    rw [wireOpJson, decodeOp_tuple (assertValidWireOp_json hvalid)]
    have hsafe := Delta.assertSafePath_eq_ok.mp hvalid
    have hraw : assertSafePath (pathJson path) = .ok () := assertSafePath_eq_ok.mpr ⟨path, rfl, hsafe⟩
    have hvalid' : Delta.assertSafePath path = .ok () := hvalid
    simp only [Delta.decodeOp, hvalid, hvalid', ok_bind, decodeArgs, hraw]
    exact ⟨h.set id path, rfl, rfl⟩
  | s ref value =>
    refine decodeOp_ref h previous hvalid rfl (by decide) (hshort rfl ref) ?_ fun path => toOp_nonEmpty (by decide) rfl
    simp only [Delta.decodeOp, hvalid, ok_bind]
  | d ref =>
    have hjson : wireOpJson (.d ref) = tuple .d (refJson ref ++ []) := by
      rw [List.append_nil]
      rfl
    refine decodeOp_ref h previous hvalid hjson (by decide) (hshort rfl ref) ?_
      fun path => toOp_nonEmpty (by decide) rfl
    simp only [Delta.decodeOp, hvalid, ok_bind]
  | a ref text =>
    refine decodeOp_ref h previous hvalid rfl (by decide) (hshort rfl ref) ?_ fun path => toOp_nonEmpty (by decide) rfl
    simp only [Delta.decodeOp, hvalid, ok_bind]
  | t ref count =>
    refine decodeOp_ref h previous hvalid rfl (by decide) (hshort rfl ref) ?_ fun path => toOp_nonEmpty (by decide) rfl
    simp only [Delta.decodeOp, hvalid, ok_bind]
  | p ref index remove items =>
    refine decodeOp_ref h previous hvalid rfl (by decide) (hshort rfl ref) ?_ fun path => ?_
    swap
    · exact .inr ⟨_, rfl, rfl, fun hempty => hempty.1 rfl⟩
    simp only [Delta.decodeOp, hvalid, ok_bind]

/-! ## What the decoder returns -/

/-- Every path the decoder knows is safe. -/
def SafePaths (d : Decoder) (previous : Option Path) : Prop :=
  (∀ id path, Table.get d id = some path → SafePath path) ∧ ∀ path ∈ previous, SafePath path

theorem safePath_of_resolveRef {d : Decoder} {previous : Option Path} {ref : Option PathRef} {path : Path}
    (h : SafePaths d previous) (hsafe : SafeRef ref) (hr : Delta.resolveRef d previous ref = .ok path) :
    SafePath path := by
  unfold Delta.resolveRef at hr
  split at hr
  · split at hr
    · cases hr
    · cases hr
      exact h.2 _ rfl
  · split at hr
    · cases hr
    · next hid =>
      cases hr
      exact h.1 _ _ hid
  · cases hr
    exact hsafe

/-- The op of a wire op under a safe path is valid. -/
theorem valid_of_toOp {w : WireOp} {path : Path} {op : Op} (hsafe : SafePath path) (h : w.toOp path = .ok op) :
    op.Valid := by
  have hne : path ≠ [] → Delta.assertPathArg path true = .ok () :=
    fun hne => Delta.assertPathArg_eq_ok.mpr ⟨fun _ => hne, hsafe⟩
  cases w <;> simp only [WireOp.toOp, nonEmptyOp, ite_error_eq_ok, reduceCtorEq, Except.ok.injEq] at h
  case r => exact h ▸ rfl
  case p => exact h ▸ Delta.assertPathArg_eq_ok.mpr ⟨by simp, hsafe⟩
  all_goals exact h.2 ▸ hne h.1

theorem decodeOp_valid {d d' : Decoder} {previous previous' : Option Path} {w : WireOp} {ops : List Op}
    (h : SafePaths d previous) (hd : Delta.decodeOp d previous w = .ok (d', previous', ops)) :
    SafePaths d' previous' ∧ ∀ op ∈ ops, op.Valid := by
  rw [Delta.decodeOp.eq_def] at hd
  obtain ⟨_, hvalid, hd⟩ := bind_eq_ok.mp hd
  -- every op but a replacement and a definition is an op under the path of its reference
  have href : ∀ ref, SafeRef ref → (do
        let path ← Delta.resolveRef d previous ref
        let op ← w.toOp path
        return (d, some path, [op])) = Except.ok (d', previous', ops) →
      SafePaths d' previous' ∧ ∀ op ∈ ops, op.Valid := by
    intro ref hsafe hd
    obtain ⟨path, hpath, hd⟩ := bind_eq_ok.mp hd
    obtain ⟨op, hop, hd⟩ := bind_eq_ok.mp hd
    cases hd
    have hsafe' := safePath_of_resolveRef h hsafe hpath
    refine ⟨⟨h.1, fun _ hp => Option.some.inj hp ▸ hsafe'⟩, fun op' hop' => ?_⟩
    rw [List.mem_singleton.mp hop']
    exact valid_of_toOp hsafe' hop
  cases w with
  | r value =>
    cases hd
    refine ⟨⟨fun id path hid => absurd hid (by simp [decoder]), fun _ hp => by cases hp⟩, fun op hop => ?_⟩
    rw [List.mem_singleton.mp hop]
    rfl
  | define id path =>
    obtain ⟨_, hsafe, hd⟩ := bind_eq_ok.mp hd
    cases hd
    refine ⟨⟨fun id' path' hid => ?_, h.2⟩, by simp⟩
    rw [Table.get_set] at hid
    split_ifs at hid
    · cases hid
      exact Delta.assertSafePath_eq_ok.mp hsafe
    · exact h.1 id' path' hid
  | s ref value => exact href ref (safeRef_iff.mpr hvalid) hd
  | d ref => exact href ref (safeRef_iff.mpr hvalid) hd
  | a ref text => exact href ref (safeRef_iff.mpr hvalid) hd
  | t ref count => exact href ref (safeRef_iff.mpr hvalid) hd
  | p ref index remove items => exact href ref (safeRef_iff.mpr hvalid) hd

/-- A decoder whose paths are safe, and the last path in its batch. -/
def SafeState (paths : Paths) (previous : Option (List Json)) : Prop :=
  ∃ d previous', Mirrors paths d ∧ previous = Option.map pathJson previous' ∧ SafePaths d previous'

theorem SafeState.decodeOp {paths paths' : Paths} {previous previous' : Option (List Json)} {v : Json} {ops : List Json}
    (h : SafeState paths previous) (hd : Wire.decodeOp paths previous v = .ok (paths', previous', ops)) :
    SafeState paths' previous' ∧ ∀ op ∈ ops, ∃ typed : Op, op = opJson typed ∧ typed.Valid := by
  obtain ⟨d, previous, hmirrors, rfl, hsafe⟩ := h
  have hcheck : assertValidWireOp v = .ok () := by
    obtain ⟨_, hcheck, -⟩ := bind_eq_ok.mp hd
    exact hcheck
  obtain ⟨w, rfl, hvalid⟩ := assertValidWireOp_eq_ok.mp hcheck
  have hagree := decodeOp_json hmirrors previous hvalid
  rw [hd] at hagree
  cases htyped : Delta.decodeOp d previous w with
  | error e =>
    rw [htyped] at hagree
    exact hagree.elim
  | ok r =>
    obtain ⟨d', previous'', ops'⟩ := r
    rw [htyped] at hagree
    obtain ⟨hmirrors', rfl, rfl⟩ := hagree
    obtain ⟨hsafe', hops⟩ := decodeOp_valid hsafe htyped
    refine ⟨⟨d', previous'', hmirrors', rfl, hsafe'⟩, fun op hop => ?_⟩
    obtain ⟨typed, htyped, rfl⟩ := List.mem_map.mp hop
    exact ⟨typed, rfl, hops typed htyped⟩

theorem SafeState.decodeOps {paths : Paths} {previous : Option (List Json)} (h : SafeState paths previous)
    (wire : List Json) : SafeState (Wire.decodeOps paths previous wire).1 none ∧
      ∀ ops, (Wire.decodeOps paths previous wire).2 = .ok ops →
        ∀ op ∈ ops, ∃ typed : Op, op = opJson typed ∧ typed.Valid := by
  induction wire generalizing paths previous with
  | nil =>
    obtain ⟨d, last, hmirrors, hlast, hsafe⟩ := h
    refine ⟨⟨d, none, hmirrors, rfl, hsafe.1, nofun⟩, fun ops hops => ?_⟩
    cases hops
    exact fun op hop => absurd hop List.not_mem_nil
  | cons v wire ih =>
    rw [Wire.decodeOps]
    cases hd : Wire.decodeOp paths previous v with
    | error e =>
      obtain ⟨d, last, hmirrors, hlast, hsafe⟩ := h
      exact ⟨⟨d, none, hmirrors, rfl, hsafe.1, nofun⟩, nofun⟩
    | ok r =>
      obtain ⟨paths', previous', ops₁⟩ := r
      obtain ⟨hstate, hvalid⟩ := h.decodeOp hd
      obtain ⟨hstate', hrest⟩ := ih hstate
      refine ⟨hstate', fun ops hops => ?_⟩
      cases hresult : (Wire.decodeOps paths' previous' wire).2 with
      | error e =>
        simp only [hresult] at hops
        cases hops
      | ok rest =>
        simp only [hresult] at hops
        cases hops
        intro op hop
        rcases List.mem_append.mp hop with hop | hop
        · exact hvalid op hop
        · exact hrest rest hresult op hop

theorem SafeState.decode {paths : Paths} (h : SafeState paths none) (wire : Json) :
    SafeState (Wire.decode paths wire).1 none ∧
      ∀ ops, (Wire.decode paths wire).2 = .ok ops →
        ∀ op ∈ ops, ∃ typed : Op, op = opJson typed ∧ typed.Valid := by
  unfold Wire.decode
  split
  · exact h.decodeOps _
  · refine ⟨h, fun ops hops => ?_⟩
    cases hops
    exact fun op hop => absurd hop List.not_mem_nil
  · exact ⟨h, nofun⟩
  · exact ⟨h, nofun⟩

theorem Reachable.safeState {paths : Paths} (h : Reachable paths) : SafeState paths none := by
  induction h with
  | init => exact ⟨[], none, fun n => rfl, rfl, fun id path hid => absurd hid (by simp), nofun⟩
  | decode _ wire ih => exact (ih.decode wire).1

/-- Whatever value arrives at a decoder behind whatever batches, decoding throws or returns ops that `assertValidOp`
accepts: valid ops, whose paths have no reserved segment. -/
theorem decode_valid {paths : Paths} (h : Reachable paths) (wire : Json) :
    (∃ e, (Wire.decode paths wire).2 = .error e) ∨
      ∃ ops, (Wire.decode paths wire).2 = .ok ops ∧ ∀ op ∈ ops, assertValidOp op = .ok () ∧
        ∃ typed : Op, op = opJson typed ∧ ∀ path ∈ typed.path?, SafePath path := by
  cases hresult : (Wire.decode paths wire).2 with
  | error e => exact .inl ⟨e, rfl⟩
  | ok ops =>
    refine .inr ⟨ops, rfl, fun op hop => ?_⟩
    obtain ⟨typed, rfl, hvalid⟩ := (h.safeState.decode wire).2 ops hresult op hop
    refine ⟨assertValidOp_eq_ok.mpr ⟨typed, rfl, hvalid⟩, typed, rfl, fun path hpath => ?_⟩
    exact safePath_of_valid hvalid hpath

/-- A batch that defines a path, and one that sets it. -/
def sampleDefinition : Json := .array [wireOpJson (.define 0 [.key (JsString.ofAscii "xs"), .index 1])]

def sampleWire : Json := .array [wireOpJson (.s (some (.id 0)) .null), wireOpJson (.t none 2)]

theorem decode_valid_sample :
    (∃ e, (Wire.decode (Wire.decode [] sampleDefinition).1 sampleWire).2 = .error e) ∨
      ∃ ops, (Wire.decode (Wire.decode [] sampleDefinition).1 sampleWire).2 = .ok ops ∧
        ∀ op ∈ ops, assertValidOp op = .ok () ∧
          ∃ typed : Op, op = opJson typed ∧ ∀ path ∈ typed.path?, SafePath path :=
  decode_valid (.decode .init sampleDefinition) sampleWire

/-- A reserved segment is refused, inline and in a definition. -/
example : (Wire.decode [] (.array [wireOpJson (.s (some (.path [.key (JsString.ofAscii "__proto__")])) .null)])).2
    = .error (.unsafePathError (.string (JsString.ofAscii "__proto__"))) := rfl

end Phi.Delta.Wire
