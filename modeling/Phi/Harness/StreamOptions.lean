import Phi.Data.Table
import Phi.Data.Text

/-!
# Patches of stream options

Model of `applyStreamOptionsPatch`, `createStreamOptionsPatch` and the `before_request` hooks of
`packages/agent/src/harness/hooks.ts`. The hooks patch the options one after the other; what they made of them is sent
on as one patch, which is to give the same options again.

A member that is undefined counts as absent. Headers and metadata are plain objects: besides their own members they
show those of `Object.prototype`. The name `__proto__` is left out, since an assignment to it makes no member.
-/

namespace Phi.Harness

/-! ## Records -/

/-- The name of a member that an assignment can make. -/
abbrev MemberName := {name : JsString // name ≠ JsString.ofAscii "__proto__"}

/-- The own members of a plain object. -/
structure Record (V : Type) where
  members : Table MemberName V
  nodup : members.Nodup

namespace Record

variable {V W : Type}

def empty : Record V := ⟨[], List.nodup_nil⟩

def get (r : Record V) (key : MemberName) : Option V := r.members.get key

def set (r : Record V) (key : MemberName) (value : V) : Record V := ⟨r.members.set key value, r.nodup.set key value⟩

def erase (r : Record V) (key : MemberName) : Record V := ⟨r.members.erase key, r.nodup.erase key⟩

@[simp] theorem get_empty (key : MemberName) : (empty : Record V).get key = none := rfl

@[simp] theorem get_set (r : Record V) (key : MemberName) (value : V) (key' : MemberName) :
    (r.set key value).get key' = if key = key' then some value else r.get key' :=
  Table.get_set r.members key value key'

@[simp] theorem get_erase (r : Record V) (key key' : MemberName) :
    (r.erase key).get key' = if key = key' then none else r.get key' :=
  Table.get_erase r.members key key'

/-- The record has no own member. -/
def isEmpty (r : Record V) : Bool := r.members.isEmpty

theorem get_of_isEmpty {r : Record V} (h : r.isEmpty = true) (key : MemberName) : r.get key = none := by
  rw [get, List.isEmpty_iff.mp h]
  rfl

end Record

/-- The members of `Object.prototype`, which every plain object shows. -/
def objectPrototype : List JsString :=
  ["constructor", "__defineGetter__", "__defineSetter__", "hasOwnProperty", "__lookupGetter__", "__lookupSetter__",
    "isPrototypeOf", "propertyIsEnumerable", "toString", "valueOf", "toLocaleString"].map JsString.ofAscii

/-! ## Options and patches -/

inductive Transport where
  | sse
  | websocket
  | websocketCached
  | auto
deriving DecidableEq

inductive CacheRetention where
  | none
  | short
  | long
deriving DecidableEq

inductive Deferred where
  | flag (value : Bool)
  | object (window : Option JsString)

structure AgentHarnessStreamOptions (V : Type) where
  transport : Option Transport
  timeoutMs : Option ℚ
  maxRetries : Option ℚ
  maxRetryDelayMs : Option ℚ
  cacheRetention : Option CacheRetention
  deferred : Option Deferred
  headers : Option (Record JsString)
  metadata : Option (Record V)

/-- A patch: for each member whether it is there, and whether it is undefined. -/
structure AgentHarnessStreamOptionsPatch (V : Type) where
  transport : Option (Option Transport)
  timeoutMs : Option (Option ℚ)
  maxRetries : Option (Option ℚ)
  maxRetryDelayMs : Option (Option ℚ)
  cacheRetention : Option (Option CacheRetention)
  deferred : Option (Option Deferred)
  headers : Option (Option (Record (Option JsString)))
  metadata : Option (Option (Record (Option V)))

/-- What `===` says about values that have an identity. What is identical is equal. -/
structure Identity (V : Type) where
  deferred : Deferred → Deferred → Bool
  headers : Record JsString → Record JsString → Bool
  metadata : Record V → Record V → Bool
  value : V → V → Bool
  /-- A plain object inherits this value under the name. -/
  inherited : MemberName → V → Bool
  eq_of_deferred : ∀ a b, deferred a b = true → a = b
  eq_of_headers : ∀ a b, headers a b = true → a = b
  eq_of_metadata : ∀ a b, metadata a b = true → a = b
  eq_of_value : ∀ a b, value a b = true → a = b
  mem_of_inherited : ∀ key a, inherited key a = true → key.1 ∈ objectPrototype

variable {V : Type}

/-! ## Applying a patch -/

/-- A top-level member after a patch. -/
def patchMember {α : Type} (base : Option α) : Option (Option α) → Option α
  | none => base
  | some value => value

/-- One round of the loop over the members of a record patch. -/
def patchEntry (r : Record V) (entry : MemberName × Option V) : Record V :=
  match entry.2 with
  | none => r.erase entry.1
  | some value => r.set entry.1 value

/-- A record after a patch. -/
def patchRecord (base : Option (Record V)) : Option (Option (Record (Option V))) → Option (Record V)
  | none => base
  | some none => none
  | some (some patch) => some (patch.members.foldl patchEntry (base.getD .empty))

def applyStreamOptionsPatch (base : AgentHarnessStreamOptions V) (patch : AgentHarnessStreamOptionsPatch V) :
    AgentHarnessStreamOptions V where
  transport := patchMember base.transport patch.transport
  timeoutMs := patchMember base.timeoutMs patch.timeoutMs
  maxRetries := patchMember base.maxRetries patch.maxRetries
  maxRetryDelayMs := patchMember base.maxRetryDelayMs patch.maxRetryDelayMs
  cacheRetention := patchMember base.cacheRetention patch.cacheRetention
  deferred := patchMember base.deferred patch.deferred
  headers := patchRecord base.headers patch.headers
  metadata := patchRecord base.metadata patch.metadata

/-! ## Creating a patch -/

/-- `===` of values that may be undefined. -/
def identical {α : Type} (same : α → α → Bool) : Option α → Option α → Bool
  | none, none => true
  | some a, some b => same a b
  | _, _ => false

/-- The member of the patch for a top-level member. -/
def memberPatch {α : Type} (same : α → α → Bool) (base value : Option α) : Option (Option α) :=
  if identical same base value then none else some value

/-- `key in value`. -/
def Record.shows (r : Record V) (key : MemberName) : Bool := (r.get key).isSome || decide (key.1 ∈ objectPrototype)

/-- `base?.[key] === value`. -/
def readsAs (same : V → V → Bool) (inherited : MemberName → V → Bool) (base : Option (Record V)) (key : MemberName)
    (value : V) : Bool :=
  match base with
  | none => false
  | some base =>
    match base.get key with
    | some own => same own value
    | none => inherited key value

/-- The removed and changed members of a record. -/
def recordDelta (same : V → V → Bool) (inherited : MemberName → V → Bool) (base : Option (Record V)) (value : Record V) :
    Record (Option V) :=
  let removed := (base.getD .empty).members.foldl
    (fun delta entry => if value.shows entry.1 then delta else delta.set entry.1 none) .empty
  value.members.foldl
    (fun delta entry => if readsAs same inherited base entry.1 entry.2 then delta else delta.set entry.1 (some entry.2))
    removed

/-- The member of the patch for headers or metadata. -/
def recordPatch (sameRecord : Record V → Record V → Bool) (same : V → V → Bool) (inherited : MemberName → V → Bool)
    (base value : Option (Record V)) : Option (Option (Record (Option V))) :=
  if identical sameRecord base value then none
  else
    match value with
    | none => some none
    | some value =>
      let delta := recordDelta same inherited base value
      if base.isNone ∧ delta.isEmpty then some (some .empty)
      else if delta.isEmpty then none
      else some (some delta)

def createStreamOptionsPatch (I : Identity V) (base value : AgentHarnessStreamOptions V) :
    AgentHarnessStreamOptionsPatch V where
  transport := memberPatch (· = ·) base.transport value.transport
  timeoutMs := memberPatch (· = ·) base.timeoutMs value.timeoutMs
  maxRetries := memberPatch (· = ·) base.maxRetries value.maxRetries
  maxRetryDelayMs := memberPatch (· = ·) base.maxRetryDelayMs value.maxRetryDelayMs
  cacheRetention := memberPatch (· = ·) base.cacheRetention value.cacheRetention
  deferred := memberPatch I.deferred base.deferred value.deferred
  -- a string is none of the inherited functions
  headers := recordPatch I.headers (· = ·) (fun _ _ => false) base.headers value.headers
  metadata := recordPatch I.metadata I.value I.inherited base.metadata value.metadata

/-! ## Hooks -/

/-- A registered handler: its patch for the options so far, if it returns one. A handler that throws is reported. -/
abbrev BeforeRequestHandler (V : Type) := AgentHarnessStreamOptions V → Option (AgentHarnessStreamOptionsPatch V)

/-- The loop of `beforeRequest`. -/
def runHandlers (handlers : List (BeforeRequestHandler V)) (options : AgentHarnessStreamOptions V) :
    AgentHarnessStreamOptions V × Bool :=
  handlers.foldl (fun (options, changed) handler =>
    match handler options with
    | some patch => (applyStreamOptionsPatch options patch, true)
    | none => (options, changed)) (options, false)

def beforeRequest (I : Identity V) (handlers : List (BeforeRequestHandler V)) (options : AgentHarnessStreamOptions V) :
    Option (AgentHarnessStreamOptionsPatch V) :=
  let (streamOptions, changed) := runHandlers handlers options
  if changed then some (createStreamOptionsPatch I options streamOptions) else none

/-! ## Equal options -/

/-- The records have the same members, in whatever order. -/
def SameRecord : Option (Record V) → Option (Record V) → Prop
  | none, none => True
  | some a, some b => ∀ key, a.get key = b.get key
  | _, _ => False

/-- The options have the same members. -/
structure SameOptions (a b : AgentHarnessStreamOptions V) : Prop where
  transport : a.transport = b.transport
  timeoutMs : a.timeoutMs = b.timeoutMs
  maxRetries : a.maxRetries = b.maxRetries
  maxRetryDelayMs : a.maxRetryDelayMs = b.maxRetryDelayMs
  cacheRetention : a.cacheRetention = b.cacheRetention
  deferred : a.deferred = b.deferred
  headers : SameRecord a.headers b.headers
  metadata : SameRecord a.metadata b.metadata

/-- A record can be reached by a patch that is created for it: no removed member has a name of `Object.prototype`, and
no new member the value that is inherited under its name. -/
def Patchable (inherited : MemberName → V → Bool) (base value : Option (Record V)) : Prop :=
  ∀ b ∈ base, ∀ v ∈ value, ∀ key,
    (b.get key ≠ none → v.get key = none → key.1 ∉ objectPrototype) ∧
      (b.get key = none → ∀ x, v.get key = some x → inherited key x = false)

/-! ## The members of a patched record -/

/-- Members that are set in a loop, some of them left out. -/
theorem get_foldl_set {W : Type} {skips : MemberName × V → Bool} {f : MemberName × V → W} {entries : Table MemberName V}
    (h : entries.Nodup) (r : Record W) (key : MemberName) :
    (entries.foldl (fun r e => if skips e then r else r.set e.1 (f e)) r).get key
      = match entries.get key with
        | some x => if skips (key, x) then r.get key else some (f (key, x))
        | none => r.get key := by
  induction entries generalizing r with
  | nil => rfl
  | cons e entries ih =>
    obtain ⟨name, value⟩ := e
    obtain ⟨hname, hentries⟩ := List.nodup_cons.mp h
    rw [List.foldl_cons, ih hentries, Table.get_cons]
    by_cases hkey : name = key
    · subst hkey
      rw [Table.get_eq_none_iff.mpr hname, if_pos rfl]
      by_cases hskips : skips (name, value) = true
      · simp [hskips]
      · simp [hskips]
    · rw [if_neg hkey]
      have hset : (if skips (name, value) = true then r else r.set name (f (name, value))).get key = r.get key := by
        split_ifs
        · rfl
        · rw [Record.get_set, if_neg hkey]
      simp only [hset]

theorem get_foldl_patchEntry {entries : Table MemberName (Option V)} (h : entries.Nodup) (r : Record V)
    (key : MemberName) : (entries.foldl patchEntry r).get key = (entries.get key).getD (r.get key) := by
  induction entries generalizing r with
  | nil => rfl
  | cons e entries ih =>
    obtain ⟨name, value⟩ := e
    obtain ⟨hname, hentries⟩ := List.nodup_cons.mp h
    rw [List.foldl_cons, ih hentries, Table.get_cons, patchEntry]
    by_cases hkey : name = key
    · subst hkey
      rw [Table.get_eq_none_iff.mpr hname, if_pos rfl]
      cases value with
      | none => simp
      | some value => simp
    · rw [if_neg hkey]
      cases value with
      | none => simp [hkey]
      | some value => simp [hkey]

theorem sameRecord_refl (r : Option (Record V)) : SameRecord r r := by
  cases r with
  | none => trivial
  | some r => exact fun key => rfl

theorem patchable_refl (inherited : MemberName → V → Bool) (base : Option (Record V)) : Patchable inherited base base := by
  intro b hb v hv key
  obtain rfl : b = v := Option.some.inj (hb.symm.trans hv)
  refine ⟨fun hne hnone => absurd hnone hne, fun hnone x hx => ?_⟩
  rw [hnone] at hx
  cases hx

section
variable {sameRecord : Record V → Record V → Bool} {same : V → V → Bool} {inherited : MemberName → V → Bool}

theorem get_recordDelta (base : Option (Record V)) (value : Record V) (key : MemberName) :
    (recordDelta same inherited base value).get key
      = match value.get key with
        | some x =>
          if readsAs same inherited base key x then none else some (some x)
        | none => if ((base.getD .empty).get key).isSome ∧ key.1 ∉ objectPrototype then some none else none := by
  rw [recordDelta, get_foldl_set value.nodup, get_foldl_set (base.getD .empty).nodup]
  change (match value.get key with | some x => _ | none => _) = _
  have hremoved : ((base.getD .empty).members.get key) = (base.getD .empty).get key := rfl
  rw [hremoved]
  cases hvalue : value.get key with
  | some x =>
    have hshows : value.shows key = true := by rw [Record.shows, hvalue]; rfl
    cases (base.getD .empty).get key <;> simp [hshows]
  | none =>
    have hshows : value.shows key = decide (key.1 ∈ objectPrototype) := by rw [Record.shows, hvalue]; rfl
    cases (base.getD .empty).get key <;> simp [hshows]

theorem eq_of_identical {α : Type} {same : α → α → Bool} (h : ∀ a b, same a b = true → a = b) {a b : Option α}
    (hsame : identical same a b = true) : a = b := by
  cases a with
  | none =>
    cases b with
    | none => rfl
    | some b => cases hsame
  | some a =>
    cases b with
    | none => cases hsame
    | some b => rw [h a b hsame]

theorem patchMember_memberPatch {α : Type} {same : α → α → Bool} (h : ∀ a b, same a b = true → a = b)
    (base value : Option α) : patchMember base (memberPatch same base value) = value := by
  rw [memberPatch]
  split_ifs with hsame
  · exact eq_of_identical h hsame
  · rfl

/-- What a created patch makes of a record, member by member. -/
theorem exists_patchRecord (base : Option (Record V)) (value : Record V)
    (hne : identical sameRecord base (some value) = false) :
    ∃ r, patchRecord base (recordPatch sameRecord same inherited base (some value)) = some r ∧
      ∀ key, r.get key = ((recordDelta same inherited base value).get key).getD ((base.getD .empty).get key) := by
  rw [recordPatch, if_neg (by simp [hne])]
  dsimp only
  split_ifs with hboth hempty
  · refine ⟨base.getD .empty, rfl, fun key => ?_⟩
    rw [Record.get_of_isEmpty hboth.2]
    rfl
  · cases base with
    | none => exact absurd ⟨rfl, hempty⟩ hboth
    | some b =>
      refine ⟨b, rfl, fun key => ?_⟩
      rw [Record.get_of_isEmpty hempty]
      rfl
  · exact ⟨_, rfl, fun key => get_foldl_patchEntry (Record.nodup _) _ key⟩

/-- A member comes back when no name or value of the prototype stands in the way. -/
theorem get_patched_iff (hsame : ∀ a b, same a b = true → a = b) (b value : Record V) (key : MemberName) :
    ((recordDelta same inherited (some b) value).get key).getD (b.get key) = value.get key ↔
      (b.get key ≠ none → value.get key = none → key.1 ∉ objectPrototype) ∧
        (b.get key = none → ∀ x, value.get key = some x → inherited key x = false) := by
  rw [get_recordDelta]
  cases hvalue : value.get key with
  | none =>
    rw [Option.getD_some]
    cases hbase : b.get key with
    | none => simp
    | some y =>
      by_cases hname : key.1 ∈ objectPrototype
      · simp [hname]
      · simp [hname]
  | some x =>
    have hreads : readsAs same inherited (some b) key x
        = match b.get key with
          | some y => same y x
          | none => inherited key x := rfl
    dsimp only
    rw [hreads]
    cases hbase : b.get key with
    | none =>
      cases hinherited : inherited key x with
      | false => simp [hinherited]
      | true => simp [hinherited]
    | some y =>
      cases hxy : same y x with
      | false => simp [hxy]
      | true =>
        obtain rfl := hsame y x hxy
        simp [hxy]

theorem sameRecord_patch_iff (hrecord : ∀ a b, sameRecord a b = true → a = b) (hsame : ∀ a b, same a b = true → a = b)
    (base value : Option (Record V)) :
    SameRecord (patchRecord base (recordPatch sameRecord same inherited base value)) value
      ↔ Patchable inherited base value := by
  cases hidentical : identical sameRecord base value with
  | true =>
    obtain rfl := eq_of_identical hrecord hidentical
    rw [recordPatch.eq_def, if_pos hidentical, patchRecord]
    exact iff_of_true (sameRecord_refl base) (patchable_refl inherited base)
  | false =>
    cases value with
    | none =>
      rw [recordPatch.eq_def, if_neg (by simp [hidentical])]
      exact iff_of_true trivial fun b _ v hv => by cases hv
    | some value =>
      obtain ⟨r, hr, hget⟩ := exists_patchRecord base value hidentical
      rw [hr]
      simp only [SameRecord, hget]
      cases base with
      | none =>
        refine iff_of_true (fun key => ?_) fun b hb => by cases hb
        rw [get_recordDelta]
        cases value.get key with
        | none => simp
        | some x => simp [readsAs]
      | some b =>
        rw [Patchable]
        simp only [Option.mem_some_iff, forall_eq', Option.getD_some]
        exact forall_congr' fun key => get_patched_iff hsame b value key

end

theorem sameOptions_patch_iff (I : Identity V) (base value : AgentHarnessStreamOptions V) :
    SameOptions (applyStreamOptionsPatch base (createStreamOptionsPatch I base value)) value
      ↔ Patchable (fun _ _ => false) base.headers value.headers ∧ Patchable I.inherited base.metadata value.metadata := by
  have hequal : ∀ {α : Type} [DecidableEq α] (a b : α), decide (a = b) = true → a = b :=
    fun a b h => of_decide_eq_true h
  rw [← sameRecord_patch_iff I.eq_of_headers hequal, ← sameRecord_patch_iff I.eq_of_metadata I.eq_of_value]
  constructor
  · intro h
    exact ⟨h.headers, h.metadata⟩
  · rintro ⟨hheaders, hmetadata⟩
    exact
      { transport := patchMember_memberPatch hequal _ _
        timeoutMs := patchMember_memberPatch hequal _ _
        maxRetries := patchMember_memberPatch hequal _ _
        maxRetryDelayMs := patchMember_memberPatch hequal _ _
        cacheRetention := patchMember_memberPatch hequal _ _
        deferred := patchMember_memberPatch I.eq_of_deferred _ _
        headers := hheaders
        metadata := hmetadata }

/-! ## What is sent -/

theorem runHandlers_unchanged {handlers : List (BeforeRequestHandler V)} {options : AgentHarnessStreamOptions V}
    (h : (runHandlers handlers options).2 = false) : (runHandlers handlers options).1 = options := by
  have hfold : ∀ state : AgentHarnessStreamOptions V × Bool,
      (handlers.foldl (fun (options, changed) handler =>
        match handler options with
        | some patch => (applyStreamOptionsPatch options patch, true)
        | none => (options, changed)) state).2 = false →
      state.2 = false ∧ (handlers.foldl (fun (options, changed) handler =>
        match handler options with
        | some patch => (applyStreamOptionsPatch options patch, true)
        | none => (options, changed)) state).1 = state.1 := by
    clear h
    induction handlers with
    | nil => exact fun state h => ⟨h, rfl⟩
    | cons handler handlers ih =>
      intro state h
      obtain ⟨hstate, hfold⟩ := ih _ h
      rw [List.foldl_cons, hfold]
      cases hhandler : handler state.1 with
      | none => exact ⟨by simpa [hhandler] using hstate, by simp [hhandler]⟩
      | some patch => simp [hhandler] at hstate
  exact (hfold (options, false) h).2

/-- The options a request is sent with. -/
def requestOptions (I : Identity V) (handlers : List (BeforeRequestHandler V)) (options : AgentHarnessStreamOptions V) :
    AgentHarnessStreamOptions V :=
  match beforeRequest I handlers options with
  | none => options
  | some patch => applyStreamOptionsPatch options patch

/-- A request is sent with the options that the hooks made under the same condition. -/
theorem sameOptions_requestOptions_iff (I : Identity V) (handlers : List (BeforeRequestHandler V))
    (options : AgentHarnessStreamOptions V) :
    SameOptions (requestOptions I handlers options) (runHandlers handlers options).1
      ↔ Patchable (fun _ _ => false) options.headers (runHandlers handlers options).1.headers ∧
        Patchable I.inherited options.metadata (runHandlers handlers options).1.metadata := by
  rw [requestOptions, beforeRequest]
  cases hchanged : (runHandlers handlers options).2 with
  | true =>
    rw [← sameOptions_patch_iff I options]
    simp [hchanged]
  | false =>
    simp only [hchanged, Bool.false_eq_true, if_false, runHandlers_unchanged hchanged]
    exact iff_of_true ⟨rfl, rfl, rfl, rfl, rfl, rfl, sameRecord_refl _, sameRecord_refl _⟩
      ⟨patchable_refl _ _, patchable_refl _ _⟩

/-- The options that hooks made of some come out of the patch that is created for them exactly when no hook removed a
header or an entry of the metadata named like a member of `Object.prototype`, or added the inherited value itself. -/
theorem createStreamOptionsPatch_inverse_iff (I : Identity V) (base : AgentHarnessStreamOptions V)
    (handlers : List (BeforeRequestHandler V)) :
    SameOptions (applyStreamOptionsPatch base (createStreamOptionsPatch I base (runHandlers handlers base).1))
        (runHandlers handlers base).1
      ↔ Patchable (fun _ _ => false) base.headers (runHandlers handlers base).1.headers ∧
        Patchable I.inherited base.metadata (runHandlers handlers base).1.metadata :=
  sameOptions_patch_iff I base (runHandlers handlers base).1

/-- Strings for metadata, and no two objects identical. -/
def stringIdentity : Identity JsString where
  deferred _ _ := false
  headers _ _ := false
  metadata _ _ := false
  value a b := a = b
  inherited _ _ := false
  eq_of_deferred := by simp
  eq_of_headers := by simp
  eq_of_metadata := by simp
  eq_of_value := by simp
  mem_of_inherited := by simp

def constructorName : MemberName := ⟨JsString.ofAscii "constructor", by decide⟩

def acmeOptions : AgentHarnessStreamOptions JsString :=
  ⟨none, none, none, none, none, none, none, some (Record.empty.set constructorName (JsString.ofAscii "acme"))⟩

/-- A hook that removes an entry of the metadata. -/
def removeConstructor : BeforeRequestHandler JsString :=
  fun _ => some ⟨none, none, none, none, none, none, none, some (some (Record.empty.set constructorName none))⟩

/-- The removal of an entry with the name of an inherited member is lost. -/
theorem removed_constructor_stays :
    ¬SameOptions
      (applyStreamOptionsPatch acmeOptions
        (createStreamOptionsPatch stringIdentity acmeOptions (runHandlers [removeConstructor] acmeOptions).1))
      (runHandlers [removeConstructor] acmeOptions).1 := by
  intro h
  have hmember : some (JsString.ofAscii "acme") = none := h.metadata constructorName
  cases hmember

end Phi.Harness
