import Phi.Data.Runs
import Phi.Data.Table

/-!
# The sockets of sessions

Model of `acquireWebSocket`, the closures it returns, `scheduleSessionWebSocketExpiry` and
`closeOpenAICodexWebSocketSessions` of `packages/ai/src/api/openai-codex-responses.ts`.

A request asks for a socket, waits until it is connected where none can be used again, holds it and releases it once.
The steps of requests, sockets and timers interleave freely. A timer may fire at any time and the clock may show any time
when it is read. A session without an id, or with an empty one, is `none`.
-/

namespace Phi.Ai.SocketPool

/-! ## The model -/

inductive ReadyState where
  | connecting
  | opened
  | closing
  | closed
deriving DecidableEq

structure Socket where
  readyState : ReadyState := .connecting
  /-- The runtime tells the state of the socket. -/
  reported : Bool

def Socket.close (x : Socket) : Socket := { x with readyState := if x.readyState = .closed then .closed else .closing }

def Socket.isReusable (x : Socket) : Bool := !x.reported || x.readyState = .opened

variable {S A : Type}

structure Entry (S A : Type) where
  socket : ℕ
  busy : Bool
  createdAt : ℕ
  /-- The place that a pending timer has been set for. -/
  idleTimer : Option (S × A) := none

def sessionWebsocketMaxAgeMs : ℕ := 55 * 60 * 1000

def Entry.isExpired (now : ℕ) (x : Entry S A) : Bool := x.createdAt + sessionWebsocketMaxAgeMs ≤ now

/-- What the release of a cached socket knows. -/
structure Cached (S A : Type) where
  entry : ℕ
  session : S
  account : A
  reused : Bool

inductive Request (S A : Type) where
  /-- The place is where the connection is to be cached. -/
  | connecting (socket : ℕ) (place : Option (S × A))
  | connected (socket : ℕ) (place : Option (S × A))
  | holding (socket : ℕ) (cached : Option (Cached S A))
  | over

def Request.socket : Request S A → Option ℕ
  | .connecting socket _ => some socket
  | .connected socket _ => some socket
  | .holding socket _ => some socket
  | .over => none

/-- Sockets, entries and requests are known by their places in these lists. -/
structure Pool (S A : Type) where
  sockets : List Socket := []
  entries : List (Entry S A) := []
  requests : List (Request S A) := []
  websocketSessionCache : Table S (Table A ℕ) := []
  /-- The sockets that requests have been given. -/
  handedOut : List ℕ := []

inductive Action (S A : Type) where
  | acquire (sessionId : Option S) (accountId : A) (now : ℕ) (reported : Bool)
  | opened (r : ℕ)
  | connectFailed (r : ℕ)
  | handOut (r now : ℕ)
  | release (r : ℕ) (keep : Bool)
  | idleTimeout (e : ℕ)
  | socketFailed (k : ℕ)
  | closeSessions (sessionId : Option S)

section

variable [DecidableEq S] [DecidableEq A]

/-! ### The cache -/

namespace Cache

def lookup (cache : Table S (Table A ℕ)) (session : S) (account : A) : Option ℕ :=
  (cache.get session).bind fun accountEntries => accountEntries.get account

def delete (cache : Table S (Table A ℕ)) (session : S) (account : A) : Table S (Table A ℕ) :=
  match cache.get session with
  | none => cache
  | some accountEntries => cache.set session (accountEntries.erase account)

def dropEmpty (cache : Table S (Table A ℕ)) (session : S) : Table S (Table A ℕ) :=
  match cache.get session with
  | some [] => cache.erase session
  | _ => cache

/-- The entry is removed if it is still the one of the account. -/
def deleteSame (cache : Table S (Table A ℕ)) (session : S) (account : A) (e : ℕ) : Table S (Table A ℕ) :=
  dropEmpty (if lookup cache session account = some e then delete cache session account else cache) session

def insert (cache : Table S (Table A ℕ)) (session : S) (account : A) (e : ℕ) : Table S (Table A ℕ) :=
  cache.set session (((cache.get session).getD []).set account e)

end Cache

namespace Pool

def modifySocket (s : Pool S A) (k : ℕ) (f : Socket → Socket) : Pool S A := { s with sockets := s.sockets.modify k f }

def modifyEntry (s : Pool S A) (e : ℕ) (f : Entry S A → Entry S A) : Pool S A :=
  { s with entries := s.entries.modify e f }

def closeWebSocketSilently (s : Pool S A) (k : ℕ) : Pool S A := s.modifySocket k Socket.close

def clearTimer (s : Pool S A) (e : ℕ) : Pool S A := s.modifyEntry e fun x => { x with idleTimer := none }

def isWebSocketReusable (s : Pool S A) (k : ℕ) : Bool := (s.sockets[k]?).any Socket.isReusable

def isOpen (s : Pool S A) (k : ℕ) : Prop := ∃ x, s.sockets[k]? = some x ∧ x.readyState = .opened

/-- A request waits for a socket, which is to be cached at a place. -/
def connect (s : Pool S A) (reported : Bool) (place : Option (S × A)) : Pool S A :=
  { s with
    sockets := s.sockets ++ [{ reported }]
    requests := s.requests ++ [.connecting s.sockets.length place] }

def discard (s : Pool S A) (session : S) (account : A) (k : ℕ) : Pool S A :=
  let s := s.closeWebSocketSilently k
  { s with websocketSessionCache := Cache.dropEmpty (Cache.delete s.websocketSessionCache session account) session }

/-- The entry of the account is in the cache. -/
def acquireCached (s : Pool S A) (session : S) (account : A) (now : ℕ) (reported : Bool) (e : ℕ) (cached : Entry S A) :
    Pool S A :=
  let s := s.clearTimer e
  if !cached.busy && !cached.isExpired now && s.isWebSocketReusable cached.socket then
    let s := s.modifyEntry e fun x => { x with busy := true }
    { s with
      requests := s.requests ++ [.holding cached.socket (some { entry := e, session, account, reused := true })]
      handedOut := s.handedOut ++ [cached.socket] }
  else if cached.busy then s.connect reported none
  else
    let s := if cached.isExpired now then s.discard session account cached.socket else s
    let s := if s.isWebSocketReusable cached.socket then s else s.discard session account cached.socket
    s.connect reported (some (session, account))

def acquireWebSocket (s : Pool S A) (sessionId : Option S) (account : A) (now : ℕ) (reported : Bool) : Pool S A :=
  match sessionId with
  | none => s.connect reported none
  | some session =>
    match Cache.lookup s.websocketSessionCache session account with
    | none => s.connect reported (some (session, account))
    | some e =>
      match s.entries[e]? with
      | none => s.connect reported (some (session, account))
      | some cached => s.acquireCached session account now reported e cached

/-- What follows when the socket is connected. -/
def handOut (s : Pool S A) (r k now : ℕ) : Option (S × A) → Pool S A
  | none =>
    { s with
      requests := s.requests.set r (.holding k none)
      handedOut := s.handedOut ++ [k] }
  | some (session, account) =>
    { s with
      requests := s.requests.set r
        (.holding k (some { entry := s.entries.length, session, account, reused := false }))
      entries := s.entries ++ [{ socket := k, busy := true, createdAt := now }]
      websocketSessionCache := Cache.insert s.websocketSessionCache session account s.entries.length
      handedOut := s.handedOut ++ [k] }

def releaseCached (s : Pool S A) (k : ℕ) (cached : Cached S A) (keep : Bool) : Pool S A :=
  if !keep || !s.isWebSocketReusable k then
    let s := s.closeWebSocketSilently k
    let s := if cached.reused then s else s.clearTimer cached.entry
    { s with
      websocketSessionCache :=
        Cache.deleteSame s.websocketSessionCache cached.session cached.account cached.entry }
  else
    s.modifyEntry cached.entry fun x => { x with busy := false, idleTimer := some (cached.session, cached.account) }

def release (s : Pool S A) (r k : ℕ) (cached : Option (Cached S A)) (keep : Bool) : Pool S A :=
  let s := { s with requests := s.requests.set r .over }
  match cached with
  | none => s.closeWebSocketSilently k
  | some cached => s.releaseCached k cached keep

/-- The timer of an entry fires. -/
def idleTimeout (s : Pool S A) (e : ℕ) (x : Entry S A) (place : S × A) : Pool S A :=
  let s := s.clearTimer e
  if x.busy then s
  else
    let s := s.closeWebSocketSilently x.socket
    { s with websocketSessionCache := Cache.deleteSame s.websocketSessionCache place.1 place.2 e }

def closeEntry (s : Pool S A) (e : ℕ) : Pool S A :=
  match s.entries[e]? with
  | none => s
  | some x => (s.clearTimer e).closeWebSocketSilently x.socket

def closeEntries (s : Pool S A) (accountEntries : Table A ℕ) : Pool S A :=
  accountEntries.foldl (fun s entry => s.closeEntry entry.2) s

def closeOpenAICodexWebSocketSessions (s : Pool S A) : Option S → Pool S A
  | some session =>
    { s.closeEntries ((s.websocketSessionCache.get session).getD []) with
      websocketSessionCache := s.websocketSessionCache.erase session }
  | none =>
    { s.websocketSessionCache.foldl (fun s session => s.closeEntries session.2) s with websocketSessionCache := [] }

def step (s : Pool S A) : Action S A → Option (Pool S A)
  | .acquire sessionId account now reported => some (s.acquireWebSocket sessionId account now reported)
  | .opened r =>
    match s.requests[r]? with
    | some (.connecting k place) =>
      if (s.sockets[k]?).any fun x => x.readyState = .connecting then
        some ({ s with requests := s.requests.set r (.connected k place) }.modifySocket k fun x =>
          { x with readyState := .opened })
      else none
    | _ => none
  | .connectFailed r =>
    match s.requests[r]? with
    | some (.connecting k _) =>
      some ({ s with requests := s.requests.set r .over }.modifySocket k fun x => { x with readyState := .closed })
    | _ => none
  | .handOut r now =>
    match s.requests[r]? with
    | some (.connected k place) => some (s.handOut r k now place)
    | _ => none
  | .release r keep =>
    match s.requests[r]? with
    | some (.holding k cached) => some (s.release r k cached keep)
    | _ => none
  | .idleTimeout e =>
    match s.entries[e]? with
    | some x => x.idleTimer.map fun place => s.idleTimeout e x place
    | none => none
  | .socketFailed k => some (s.modifySocket k fun x => { x with readyState := .closed })
  | .closeSessions sessionId => some (s.closeOpenAICodexWebSocketSessions sessionId)

/-- A request holds a socket. -/
def Holds (s : Pool S A) (r k : ℕ) : Prop := ∃ cached, s.requests[r]? = some (.holding k cached)

end Pool

end

/-! ## Lists that are changed at one place -/

section

variable {α : Type} {l : List α} {a b : α} {i j : ℕ}

theorem getElem?_set_cases (h : (l.set i a)[j]? = some b) : (j = i ∧ b = a) ∨ (j ≠ i ∧ l[j]? = some b) := by
  rw [List.getElem?_set] at h
  split at h
  · rename_i hij
    split at h
    · cases h
      exact .inl ⟨hij.symm, rfl⟩
    · cases h
  · rename_i hij
    exact .inr ⟨Ne.symm hij, h⟩

theorem getElem?_concat_cases (h : (l ++ [a])[j]? = some b) : l[j]? = some b ∨ (j = l.length ∧ b = a) := by
  rcases Nat.lt_trichotomy j l.length with hlt | rfl | hlt
  · rw [List.getElem?_append_left hlt] at h
    exact .inl h
  · rw [List.getElem?_concat_length] at h
    cases h
    exact .inr ⟨rfl, rfl⟩
  · rw [List.getElem?_eq_none (by simp; omega)] at h
    cases h

theorem getElem?_concat_of_some (h : l[j]? = some b) : (l ++ [a])[j]? = some b := by
  rw [List.getElem?_append_left (List.getElem?_eq_some_iff.mp h).1]
  exact h

theorem getElem?_set_of_some (hi : l[i]? = some b) : (l.set i a)[i]? = some a :=
  List.getElem?_set_self (List.getElem?_eq_some_iff.mp hi).1

end

/-! ## Custody -/

/-- Every socket is in one request's custody at most, that of an entry is in custody of a request that holds it through
the entry, and an open one is held or will be closed. -/
structure Custody (s : Pool S A) : Prop where
  socket_lt : ∀ (r : ℕ) (q : Request S A) (k : ℕ), s.requests[r]? = some q → q.socket = some k → k < s.sockets.length
  unique : ∀ (r r' : ℕ) (q q' : Request S A) (k : ℕ), s.requests[r]? = some q → s.requests[r']? = some q' →
    q.socket = some k → q'.socket = some k → r = r'
  entry_lt : ∀ (e : ℕ) (x : Entry S A), s.entries[e]? = some x → x.socket < s.sockets.length
  entry_unique : ∀ (e e' : ℕ) (x x' : Entry S A), s.entries[e]? = some x → s.entries[e']? = some x' →
    x.socket = x'.socket → e = e'
  handed_lt : ∀ k ∈ s.handedOut, k < s.sockets.length
  cached : ∀ (r k : ℕ) (c : Cached S A), s.requests[r]? = some (Request.holding k (some c)) →
    ∃ x : Entry S A, s.entries[c.entry]? = some x ∧ x.socket = k ∧ x.busy = true
  user : ∀ (e : ℕ) (x : Entry S A) (r : ℕ) (q : Request S A), s.entries[e]? = some x → s.requests[r]? = some q →
    q.socket = some x.socket → ∃ c, q = .holding x.socket (some c) ∧ c.entry = e
  unhanded : ∀ (r : ℕ) (q : Request S A) (k : ℕ), s.requests[r]? = some q → q.socket = some k → k ∈ s.handedOut →
    s.Holds r k
  busy_timer : ∀ (e : ℕ) (x : Entry S A), s.entries[e]? = some x → x.busy = true → x.idleTimer = none
  idle_timer : ∀ (e : ℕ) (x : Entry S A), s.entries[e]? = some x → x.busy = false → s.isOpen x.socket →
    x.idleTimer ≠ none
  busy_held : ∀ (e : ℕ) (x : Entry S A), s.entries[e]? = some x → x.busy = true → s.isOpen x.socket →
    ∃ r, s.Holds r x.socket
  handed : ∀ k ∈ s.handedOut, s.isOpen k → (∃ r, s.Holds r k) ∨
    ∃ e : ℕ, ∃ x : Entry S A, s.entries[e]? = some x ∧ x.socket = k

variable {s s' : Pool S A}

theorem custody_init : Custody ({} : Pool S A) := by
  constructor <;> intros <;> simp_all

/-- Sockets are closed, and the timers of entries whose sockets are not open, or that are busy, are cleared. -/
structure Shut (s s' : Pool S A) : Prop where
  requests : s'.requests = s.requests
  handedOut : s'.handedOut = s.handedOut
  length : s'.sockets.length = s.sockets.length
  isOpen : ∀ k, s'.isOpen k → s.isOpen k
  of_entry : ∀ (e : ℕ) (x' : Entry S A), s'.entries[e]? = some x' → ∃ x : Entry S A, s.entries[e]? = some x ∧
    x'.socket = x.socket ∧ x'.busy = x.busy ∧
      (x'.idleTimer = x.idleTimer ∨ x'.idleTimer = none ∧ (x.busy = true ∨ ¬s'.isOpen x.socket))
  entry : ∀ (e : ℕ) (x : Entry S A), s.entries[e]? = some x → ∃ x' : Entry S A, s'.entries[e]? = some x' ∧
    x'.socket = x.socket ∧ x'.busy = x.busy

theorem Shut.refl (s : Pool S A) : Shut s s where
  requests := rfl
  handedOut := rfl
  length := rfl
  isOpen _ h := h
  of_entry _ x h := ⟨x, h, rfl, rfl, .inl rfl⟩
  entry _ x h := ⟨x, h, rfl, rfl⟩

theorem Shut.trans {s'' : Pool S A} (h : Shut s s') (h' : Shut s' s'') : Shut s s'' where
  requests := h'.requests.trans h.requests
  handedOut := h'.handedOut.trans h.handedOut
  length := h'.length.trans h.length
  isOpen k hk := h.isOpen k (h'.isOpen k hk)
  of_entry e x'' hx'' := by
    rcases h'.of_entry e x'' hx'' with ⟨x', hx', hsocket', hbusy', htimer'⟩
    rcases h.of_entry e x' hx' with ⟨x, hx, hsocket, hbusy, htimer⟩
    refine ⟨x, hx, hsocket'.trans hsocket, hbusy'.trans hbusy, ?_⟩
    rcases htimer' with heq' | ⟨hnone', hwhy'⟩
    · rcases htimer with heq | ⟨hnone, hwhy⟩
      · exact .inl (heq'.trans heq)
      · exact .inr ⟨heq'.trans hnone, hwhy.imp_right fun hshut hopen => hshut (h'.isOpen _ hopen)⟩
    · rw [hbusy, hsocket] at hwhy'
      exact .inr ⟨hnone', hwhy'⟩
  entry e x hx := by
    rcases h.entry e x hx with ⟨x', hx', hsocket, hbusy⟩
    rcases h'.entry e x' hx' with ⟨x'', hx'', hsocket', hbusy'⟩
    exact ⟨x'', hx'', hsocket'.trans hsocket, hbusy'.trans hbusy⟩

theorem Shut.holds (h : Shut s s') {r k : ℕ} : s'.Holds r k ↔ s.Holds r k := by
  unfold Pool.Holds
  rw [h.requests]

theorem Custody.shut (h : Custody s) (hs : Shut s s') : Custody s' where
  socket_lt r q k hr hk := by
    rw [hs.length]
    exact h.socket_lt r q k (hs.requests ▸ hr) hk
  unique r r' q q' k hr hr' := h.unique r r' q q' k (hs.requests ▸ hr) (hs.requests ▸ hr')
  entry_lt e x' hx' := by
    rcases hs.of_entry e x' hx' with ⟨x, hx, hsocket, -⟩
    rw [hs.length, hsocket]
    exact h.entry_lt e x hx
  entry_unique e e' y y' hy hy' heq := by
    rcases hs.of_entry e y hy with ⟨x, hx, hsocket, -⟩
    rcases hs.of_entry e' y' hy' with ⟨x', hx', hsocket', -⟩
    exact h.entry_unique e e' x x' hx hx' (by rw [← hsocket, ← hsocket', heq])
  handed_lt k hk := by
    rw [hs.length]
    exact h.handed_lt k (hs.handedOut ▸ hk)
  cached r k c hr := by
    rcases h.cached r k c (hs.requests ▸ hr) with ⟨x, hx, hsocket, hbusy⟩
    rcases hs.entry _ x hx with ⟨x', hx', hsocket', hbusy'⟩
    exact ⟨x', hx', hsocket'.trans hsocket, hbusy'.trans hbusy⟩
  user e x' r q hx' hr hq := by
    rcases hs.of_entry e x' hx' with ⟨x, hx, hsocket, -⟩
    rw [hsocket] at hq ⊢
    exact h.user e x r q hx (hs.requests ▸ hr) hq
  unhanded r q k hr hk hmem := hs.holds.mpr (h.unhanded r q k (hs.requests ▸ hr) hk (hs.handedOut ▸ hmem))
  busy_timer e x' hx' hbusy := by
    rcases hs.of_entry e x' hx' with ⟨x, hx, -, hbusy', heq | ⟨hnone, -⟩⟩
    · exact heq.trans (h.busy_timer e x hx (hbusy'.symm.trans hbusy))
    · exact hnone
  idle_timer e x' hx' hidle hopen := by
    rcases hs.of_entry e x' hx' with ⟨x, hx, hsocket, hbusy', heq | ⟨-, hbusy | hshut⟩⟩
    · rw [heq]
      exact h.idle_timer e x hx (hbusy'.symm.trans hidle) (hs.isOpen _ (hsocket ▸ hopen))
    · rw [hbusy', hbusy] at hidle
      cases hidle
    · exact absurd (hsocket ▸ hopen) hshut
  busy_held e x' hx' hbusy hopen := by
    rcases hs.of_entry e x' hx' with ⟨x, hx, hsocket, hbusy', -⟩
    rw [hsocket] at hopen ⊢
    rcases h.busy_held e x hx (hbusy'.symm.trans hbusy) (hs.isOpen _ hopen) with ⟨r, hr⟩
    exact ⟨r, hs.holds.mpr hr⟩
  handed k hk hopen := by
    rcases h.handed k (hs.handedOut ▸ hk) (hs.isOpen k hopen) with ⟨r, hr⟩ | ⟨e, x, hx, hsocket⟩
    · exact .inl ⟨r, hs.holds.mpr hr⟩
    · rcases hs.entry e x hx with ⟨x', hx', hsocket', -⟩
      exact .inr ⟨e, x', hx', hsocket'.trans hsocket⟩

theorem Shut.cache (h : Shut s s') (cache : Table S (Table A ℕ)) : Shut s { s' with websocketSessionCache := cache } :=
  ⟨h.requests, h.handedOut, h.length, h.isOpen, h.of_entry, h.entry⟩

theorem isOpen_modifySocket {k j : ℕ} {f : Socket → Socket} (h : (s.modifySocket k f).isOpen j) :
    ∃ x, s.sockets[j]? = some x ∧ (if k = j then f x else x).readyState = .opened := by
  rcases h with ⟨y, hy, hopen⟩
  simp only [Pool.modifySocket, List.getElem?_modify, Option.map_eq_map, Option.map_eq_some_iff] at hy
  rcases hy with ⟨x, hx, rfl⟩
  exact ⟨x, hx, hopen⟩

theorem shut_modifySocket (s : Pool S A) (k : ℕ) {f : Socket → Socket}
    (hf : ∀ x, (f x).readyState = .opened → x.readyState = .opened) : Shut s (s.modifySocket k f) where
  requests := rfl
  handedOut := rfl
  length := List.length_modify ..
  isOpen j hj := by
    rcases isOpen_modifySocket hj with ⟨x, hx, hopen⟩
    refine ⟨x, hx, ?_⟩
    split at hopen
    · exact hf x hopen
    · exact hopen
  of_entry _ x hx := ⟨x, hx, rfl, rfl, .inl rfl⟩
  entry _ x hx := ⟨x, hx, rfl, rfl⟩

theorem close_readyState (x : Socket) : x.close.readyState ≠ .opened := by
  unfold Socket.close
  dsimp only
  split <;> exact nofun

theorem shut_close (s : Pool S A) (k : ℕ) : Shut s (s.closeWebSocketSilently k) :=
  shut_modifySocket s k fun x hx => absurd hx (close_readyState x)

theorem not_isOpen_close (s : Pool S A) (k : ℕ) : ¬(s.closeWebSocketSilently k).isOpen k := by
  intro h
  rcases isOpen_modifySocket h with ⟨x, -, hopen⟩
  rw [if_pos rfl] at hopen
  exact close_readyState x hopen

theorem shut_clearTimer {e : ℕ} {x : Entry S A} (hx : s.entries[e]? = some x)
    (hwhy : x.busy = true ∨ ¬s.isOpen x.socket) : Shut s (s.clearTimer e) where
  requests := rfl
  handedOut := rfl
  length := rfl
  isOpen _ h := h
  of_entry i y' hy' := by
    simp only [Pool.clearTimer, Pool.modifyEntry, List.getElem?_modify, Option.map_eq_map, Option.map_eq_some_iff] at hy'
    rcases hy' with ⟨y, hy, rfl⟩
    by_cases hi : e = i
    · subst hi
      rw [hx] at hy
      cases hy
      rw [if_pos rfl]
      exact ⟨x, hx, rfl, rfl, .inr ⟨rfl, hwhy⟩⟩
    · rw [if_neg hi]
      exact ⟨y, hy, rfl, rfl, .inl rfl⟩
  entry i y hy := by
    refine ⟨if e = i then { y with idleTimer := none } else y, ?_, ?_, ?_⟩
    · simp only [Pool.clearTimer, Pool.modifyEntry, List.getElem?_modify, hy, Option.map_eq_map, Option.map_some]
    · split <;> rfl
    · split <;> rfl

/-- The socket of an entry is closed, and its timer is cleared. -/
theorem shut_clearTimer_close {e : ℕ} {x : Entry S A} (hx : s.entries[e]? = some x) :
    Shut s ((s.clearTimer e).closeWebSocketSilently x.socket) :=
  (shut_close s x.socket).trans (shut_clearTimer (s := s.closeWebSocketSilently x.socket) hx
    (.inr (not_isOpen_close s x.socket)))

theorem shut_closeEntry (s : Pool S A) (e : ℕ) : Shut s (s.closeEntry e) := by
  unfold Pool.closeEntry
  split
  · exact .refl s
  · rename_i x hx
    exact shut_clearTimer_close hx

theorem shut_closeEntries (s : Pool S A) (accountEntries : Table A ℕ) : Shut s (s.closeEntries accountEntries) := by
  unfold Pool.closeEntries
  induction accountEntries generalizing s with
  | nil => exact .refl s
  | cons entry accountEntries ih => exact (shut_closeEntry s entry.2).trans (ih _)

theorem shut_closeSessions [DecidableEq S] (s : Pool S A) (sessionId : Option S) :
    Shut s (s.closeOpenAICodexWebSocketSessions sessionId) := by
  cases sessionId with
  | some session => exact (shut_closeEntries s _).cache _
  | none =>
    apply Shut.cache
    induction s.websocketSessionCache generalizing s with
    | nil => exact .refl s
    | cons session sessions ih => exact (shut_closeEntries s session.2).trans (ih _)

/-! ## Steps of requests -/

theorem isOpen_of_lt {sockets : List Socket} {x : Socket} {k : ℕ} (hx : x.readyState ≠ .opened)
    (h : ({ s with sockets := sockets ++ [x] } : Pool S A).isOpen k) : ({ s with sockets } : Pool S A).isOpen k := by
  rcases h with ⟨y, hy, hopen⟩
  rcases getElem?_concat_cases hy with hy | ⟨-, rfl⟩
  · exact ⟨y, hy, hopen⟩
  · exact absurd hopen hx

theorem Custody.connect (h : Custody s) (reported : Bool) (place : Option (S × A)) : Custody (s.connect reported place) := by
  have hlength : (s.connect reported place).sockets.length = s.sockets.length + 1 := List.length_append
  have hopen : ∀ {k}, (s.connect reported place).isOpen k → s.isOpen k := fun hk => isOpen_of_lt (by simp) hk
  have hnew : ∀ {q : Request S A} {r k : ℕ}, (s.connect reported place).requests[r]? = some q → q.socket = some k →
      (s.requests[r]? = some q ∧ k < s.sockets.length) ∨
        (r = s.requests.length ∧ q = .connecting s.sockets.length place ∧ k = s.sockets.length) := by
    intro q r k hr hk
    rcases getElem?_concat_cases hr with hr | ⟨rfl, rfl⟩
    · exact .inl ⟨hr, h.socket_lt r q k hr hk⟩
    · cases hk
      exact .inr ⟨rfl, rfl, rfl⟩
  have hholds : ∀ {r k}, s.Holds r k → (s.connect reported place).Holds r k := by
    rintro r k ⟨c, hr⟩
    exact ⟨c, getElem?_concat_of_some hr⟩
  constructor
  case socket_lt =>
    intro r q k hr hk
    rw [hlength]
    rcases hnew hr hk with ⟨-, hlt⟩ | ⟨-, -, rfl⟩ <;> omega
  case unique =>
    intro r r' q q' k hr hr' hk hk'
    rcases hnew hr hk with ⟨hr, hlt⟩ | ⟨rfl, rfl, heq⟩ <;> rcases hnew hr' hk' with ⟨hr', hlt'⟩ | ⟨rfl, rfl, heq'⟩
    · exact h.unique r r' q q' k hr hr' hk hk'
    · omega
    · omega
    · rfl
  case entry_lt =>
    intro e x hx
    have := h.entry_lt e x hx
    omega
  case entry_unique => exact h.entry_unique
  case handed_lt =>
    intro k hk
    have := h.handed_lt k hk
    omega
  case cached =>
    intro r k c hr
    rcases hnew hr rfl with ⟨hr, -⟩ | ⟨-, heq, -⟩
    · exact h.cached r k c hr
    · cases heq
  case user =>
    intro e x r q hx hr hq
    have hlt := h.entry_lt e x hx
    rcases hnew hr hq with ⟨hr, -⟩ | ⟨-, -, heq⟩
    · exact h.user e x r q hx hr hq
    · omega
  case unhanded =>
    intro r q k hr hk hmem
    have hlt := h.handed_lt k hmem
    rcases hnew hr hk with ⟨hr, -⟩ | ⟨-, -, heq⟩
    · exact hholds (h.unhanded r q k hr hk hmem)
    · omega
  case busy_timer => exact h.busy_timer
  case idle_timer => exact fun e x hx hidle hx' => h.idle_timer e x hx hidle (hopen hx')
  case busy_held =>
    intro e x hx hbusy hx'
    rcases h.busy_held e x hx hbusy (hopen hx') with ⟨r, hr⟩
    exact ⟨r, hholds hr⟩
  case handed =>
    intro k hk hx'
    exact (h.handed k hk (hopen hx')).imp_left fun ⟨r, hr⟩ => ⟨r, hholds hr⟩

/-- The socket of a request is connected. -/
theorem Custody.opened (h : Custody s) {r k : ℕ} {place : Option (S × A)}
    (hr : s.requests[r]? = some (.connecting k place)) :
    Custody ({ s with requests := s.requests.set r (.connected k place) }.modifySocket k fun x =>
      { x with readyState := .opened }) := by
  set s' : Pool S A := { s with requests := s.requests.set r (.connected k place) }.modifySocket k fun x =>
    { x with readyState := .opened } with hs'
  have hlength : s'.sockets.length = s.sockets.length := List.length_modify ..
  have hrequest : ∀ {q' : Request S A} {r' j : ℕ}, s'.requests[r']? = some q' → q'.socket = some j →
      (s.requests[r']? = some q' ∧ r' ≠ r) ∨ (r' = r ∧ q' = .connected k place ∧ j = k) := by
    intro q' r' j hr' hj
    rcases getElem?_set_cases hr' with ⟨rfl, rfl⟩ | ⟨hne, hr'⟩
    · cases hj
      exact .inr ⟨rfl, rfl, rfl⟩
    · exact .inl ⟨hr', hne⟩
  have hold : ∀ {q' : Request S A} {r' j : ℕ}, s'.requests[r']? = some q' → q'.socket = some j →
      ∃ q : Request S A, s.requests[r']? = some q ∧ q.socket = some j := by
    intro q' r' j hr' hj
    rcases hrequest hr' hj with ⟨hr', -⟩ | ⟨rfl, -, rfl⟩
    · exact ⟨q', hr', hj⟩
    · exact ⟨_, hr, rfl⟩
  have hopen : ∀ {j}, j ≠ k → s'.isOpen j → s.isOpen j := by
    intro j hj hopen
    rcases isOpen_modifySocket hopen with ⟨x, hx, hopen⟩
    rw [if_neg (Ne.symm hj)] at hopen
    exact ⟨x, hx, hopen⟩
  have hholds : ∀ {r' j}, s.Holds r' j → s'.Holds r' j := by
    rintro r' j ⟨c, hr'⟩
    refine ⟨c, ?_⟩
    have hne : r ≠ r' := by
      rintro rfl
      rw [hr] at hr'
      cases hr'
    exact (List.getElem?_set_ne hne).trans hr'
  -- no entry has the socket, and it has not been handed out
  have hentry : ∀ {e : ℕ} {x : Entry S A}, s.entries[e]? = some x → x.socket ≠ k := by
    rintro e x hx rfl
    rcases h.user e x r _ hx hr rfl with ⟨c, hc, -⟩
    cases hc
  have hunhanded : k ∉ s.handedOut := by
    intro hk
    rcases h.unhanded r _ k hr rfl hk with ⟨c, hc⟩
    rw [hr] at hc
    cases hc
  constructor
  case socket_lt =>
    intro r' q' j hr' hj
    rcases hold hr' hj with ⟨q, hq, hj⟩
    rw [hlength]
    exact h.socket_lt r' q j hq hj
  case unique =>
    intro r' r'' q' q'' j hr' hr'' hj hj'
    rcases hold hr' hj with ⟨q, hq, hj⟩
    rcases hold hr'' hj' with ⟨p, hp, hj'⟩
    exact h.unique r' r'' q p j hq hp hj hj'
  case entry_lt =>
    intro e x hx
    rw [hlength]
    exact h.entry_lt e x hx
  case entry_unique => exact h.entry_unique
  case handed_lt =>
    intro j hj
    rw [hlength]
    exact h.handed_lt j hj
  case cached =>
    intro r' j c hr'
    rcases hrequest hr' rfl with ⟨hr', -⟩ | ⟨-, heq, -⟩
    · exact h.cached r' j c hr'
    · cases heq
  case user =>
    intro e x r' q' hx hr' hq'
    rcases hrequest hr' hq' with ⟨hr', -⟩ | ⟨-, -, heq⟩
    · exact h.user e x r' q' hx hr' hq'
    · exact absurd heq (hentry hx)
  case unhanded =>
    intro r' q' j hr' hj hmem
    rcases hrequest hr' hj with ⟨hr', -⟩ | ⟨-, -, rfl⟩
    · exact hholds (h.unhanded r' q' j hr' hj hmem)
    · exact absurd hmem hunhanded
  case busy_timer => exact h.busy_timer
  case idle_timer => exact fun e x hx hidle hx' => h.idle_timer e x hx hidle (hopen (hentry hx) hx')
  case busy_held =>
    intro e x hx hbusy hx'
    rcases h.busy_held e x hx hbusy (hopen (hentry hx) hx') with ⟨r', hr'⟩
    exact ⟨r', hholds hr'⟩
  case handed =>
    intro j hj hx'
    have hne : j ≠ k := fun heq => hunhanded (heq ▸ hj)
    exact (h.handed j hj (hopen hne hx')).imp_left fun ⟨r', hr'⟩ => ⟨r', hholds hr'⟩

/-- A request whose socket is not open ends. -/
theorem Custody.over (h : Custody s) {r k : ℕ} {p : Request S A} (hr : s.requests[r]? = some p) (hk : p.socket = some k)
    (hshut : ¬s.isOpen k) : Custody { s with requests := s.requests.set r .over } := by
  have hrequest : ∀ {q' : Request S A} {r' j : ℕ}, (s.requests.set r .over)[r']? = some q' → q'.socket = some j →
      s.requests[r']? = some q' := by
    intro q' r' j hr' hj
    rcases getElem?_set_cases hr' with ⟨-, rfl⟩ | ⟨-, hr'⟩
    · cases hj
    · exact hr'
  have hholds : ∀ {r' j}, j ≠ k → s.Holds r' j → Pool.Holds { s with requests := s.requests.set r .over } r' j := by
    rintro r' j hj ⟨c, hr'⟩
    refine ⟨c, ?_⟩
    have hne : r ≠ r' := by
      rintro rfl
      rw [hr] at hr'
      cases hr'
      exact hj (Option.some.inj hk)
    exact (List.getElem?_set_ne hne).trans hr'
  constructor
  case socket_lt => exact fun r' q' j hr' hj => h.socket_lt r' q' j (hrequest hr' hj) hj
  case unique =>
    exact fun r' r'' q' q'' j hr' hr'' hj hj' => h.unique r' r'' q' q'' j (hrequest hr' hj) (hrequest hr'' hj') hj hj'
  case entry_lt => exact h.entry_lt
  case entry_unique => exact h.entry_unique
  case handed_lt => exact h.handed_lt
  case cached => exact fun r' j c hr' => h.cached r' j c (hrequest hr' rfl)
  case user => exact fun e x r' q' hx hr' hq' => h.user e x r' q' hx (hrequest hr' hq') hq'
  case unhanded =>
    intro r' q' j hr' hj hmem
    rcases h.unhanded r' q' j (hrequest hr' hj) hj hmem with ⟨c, hc⟩
    rw [hrequest hr' hj] at hc
    cases hc
    exact ⟨c, hr'⟩
  case busy_timer => exact h.busy_timer
  case idle_timer => exact h.idle_timer
  case busy_held =>
    intro e x hx hbusy hx'
    have hne : x.socket ≠ k := fun heq => hshut (heq ▸ hx')
    rcases h.busy_held e x hx hbusy hx' with ⟨r', hr'⟩
    exact ⟨r', hholds hne hr'⟩
  case handed =>
    intro j hj hx'
    have hne : j ≠ k := fun heq => hshut (heq ▸ hx')
    exact (h.handed j hj hx').imp_left fun ⟨r', hr'⟩ => ⟨r', hholds hne hr'⟩

/-- The socket of a connected request is in no entry, and no other request has it. -/
theorem Custody.handOut (h : Custody s) [DecidableEq S] [DecidableEq A] {r k : ℕ} {place : Option (S × A)}
    (hr : s.requests[r]? = some (.connected k place)) (now : ℕ) : Custody (s.handOut r k now place) := by
  have hlt := h.socket_lt r _ k hr rfl
  have hentry : ∀ {e : ℕ} {x : Entry S A}, s.entries[e]? = some x → x.socket ≠ k := by
    rintro e x hx rfl
    rcases h.user e x r _ hx hr rfl with ⟨c, hc, -⟩
    cases hc
  have hold : ∀ {p q' : Request S A} {r' j : ℕ}, p.socket = some k → (s.requests.set r p)[r']? = some q' →
      q'.socket = some j → (r' = r ∧ q' = p ∧ j = k) ∨ (s.requests[r']? = some q' ∧ j ≠ k) := by
    intro p q' r' j hp hr' hj
    rcases getElem?_set_cases hr' with ⟨rfl, rfl⟩ | ⟨hne, hr'⟩
    · exact .inl ⟨rfl, rfl, Option.some.inj (hj.symm.trans hp)⟩
    · exact .inr ⟨hr', fun heq => hne (h.unique r' r q' _ k hr' hr (heq ▸ hj) rfl)⟩
  have hholds : ∀ {r' j} {p : Request S A}, s.Holds r' j → ∃ c, (s.requests.set r p)[r']? = some (.holding j c) := by
    rintro r' j p ⟨c, hr'⟩
    have hne : r ≠ r' := by
      rintro rfl
      rw [hr] at hr'
      cases hr'
    exact ⟨c, (List.getElem?_set_ne hne).trans hr'⟩
  have hmem : ∀ {j : ℕ}, j ∈ s.handedOut ++ [k] → j ∈ s.handedOut ∨ j = k := fun hj => by
    rw [List.mem_append, List.mem_singleton] at hj
    exact hj
  cases place with
  | none =>
    have hself : Pool.Holds (s.handOut r k now none) r k := ⟨none, getElem?_set_of_some hr⟩
    constructor
    case socket_lt =>
      intro r' q' j hr' hj
      rcases hold rfl hr' hj with ⟨-, -, rfl⟩ | ⟨hr', -⟩
      · exact hlt
      · exact h.socket_lt r' q' j hr' hj
    case unique =>
      intro r' r'' q' q'' j hr' hr'' hj hj'
      rcases hold rfl hr' hj with ⟨rfl, -, rfl⟩ | ⟨hr', hne⟩ <;> rcases hold rfl hr'' hj' with ⟨rfl, -, heq⟩ | ⟨hr'', hne'⟩
      · rfl
      · exact absurd rfl hne'
      · exact absurd heq hne
      · exact h.unique r' r'' q' q'' j hr' hr'' hj hj'
    case entry_lt => exact h.entry_lt
    case entry_unique => exact h.entry_unique
    case handed_lt =>
      intro j hj
      rcases hmem hj with hj | rfl
      · exact h.handed_lt j hj
      · exact hlt
    case cached =>
      intro r' j c hr'
      rcases hold rfl hr' rfl with ⟨-, heq, -⟩ | ⟨hr', -⟩
      · cases heq
      · exact h.cached r' j c hr'
    case user =>
      intro e x r' q' hx hr' hq'
      rcases hold rfl hr' hq' with ⟨-, -, heq⟩ | ⟨hr', -⟩
      · exact absurd heq (hentry hx)
      · exact h.user e x r' q' hx hr' hq'
    case unhanded =>
      intro r' q' j hr' hj hj'
      rcases hold rfl hr' hj with ⟨rfl, rfl, rfl⟩ | ⟨hr', hne⟩
      · exact hself
      · exact hholds (h.unhanded r' q' j hr' hj ((hmem hj').resolve_right hne))
    case busy_timer => exact h.busy_timer
    case idle_timer => exact h.idle_timer
    case busy_held =>
      intro e x hx hbusy hx'
      rcases h.busy_held e x hx hbusy hx' with ⟨r', hr'⟩
      exact ⟨r', hholds hr'⟩
    case handed =>
      intro j hj hx'
      rcases hmem hj with hj | rfl
      · exact (h.handed j hj hx').imp_left fun ⟨r', hr'⟩ => ⟨r', hholds hr'⟩
      · exact .inl ⟨r, hself⟩
  | some place =>
    rcases place with ⟨session, account⟩
    have hself : Pool.Holds (s.handOut r k now (some (session, account))) r k := ⟨some _, getElem?_set_of_some hr⟩
    have hnew : ∀ {e : ℕ} {x : Entry S A}, (s.handOut r k now (some (session, account))).entries[e]? = some x →
        s.entries[e]? = some x ∨ (e = s.entries.length ∧ x = { socket := k, busy := true, createdAt := now }) :=
      fun hx => getElem?_concat_cases hx
    constructor
    case socket_lt =>
      intro r' q' j hr' hj
      rcases hold rfl hr' hj with ⟨-, -, rfl⟩ | ⟨hr', -⟩
      · exact hlt
      · exact h.socket_lt r' q' j hr' hj
    case unique =>
      intro r' r'' q' q'' j hr' hr'' hj hj'
      rcases hold rfl hr' hj with ⟨rfl, -, rfl⟩ | ⟨hr', hne⟩ <;> rcases hold rfl hr'' hj' with ⟨rfl, -, heq⟩ | ⟨hr'', hne'⟩
      · rfl
      · exact absurd rfl hne'
      · exact absurd heq hne
      · exact h.unique r' r'' q' q'' j hr' hr'' hj hj'
    case entry_lt =>
      intro e x hx
      rcases hnew hx with hx | ⟨-, rfl⟩
      · exact h.entry_lt e x hx
      · exact hlt
    case entry_unique =>
      intro e e' x x' hx hx' heq
      rcases hnew hx with hx | ⟨rfl, rfl⟩ <;> rcases hnew hx' with hx' | ⟨rfl, rfl⟩
      · exact h.entry_unique e e' x x' hx hx' heq
      · exact absurd heq (hentry hx)
      · exact absurd heq.symm (hentry hx')
      · rfl
    case handed_lt =>
      intro j hj
      rcases hmem hj with hj | rfl
      · exact h.handed_lt j hj
      · exact hlt
    case cached =>
      intro r' j c hr'
      rcases hold rfl hr' rfl with ⟨-, heq, rfl⟩ | ⟨hr', -⟩
      · cases heq
        exact ⟨_, List.getElem?_concat_length, rfl, rfl⟩
      · rcases h.cached r' j c hr' with ⟨x, hx, hrest⟩
        exact ⟨x, getElem?_concat_of_some hx, hrest⟩
    case user =>
      intro e x r' q' hx' hr' hq'
      rcases hnew hx' with hx | ⟨rfl, rfl⟩ <;> rcases hold rfl hr' hq' with ⟨rfl, rfl, heq⟩ | ⟨hr', hne⟩
      · exact absurd heq (hentry hx)
      · exact h.user e x r' q' hx hr' hq'
      · exact ⟨_, rfl, rfl⟩
      · exact absurd rfl hne
    case unhanded =>
      intro r' q' j hr' hj hj'
      rcases hold rfl hr' hj with ⟨rfl, rfl, rfl⟩ | ⟨hr', hne⟩
      · exact hself
      · exact hholds (h.unhanded r' q' j hr' hj ((hmem hj').resolve_right hne))
    case busy_timer =>
      intro e x hx hbusy
      rcases hnew hx with hx | ⟨-, rfl⟩
      · exact h.busy_timer e x hx hbusy
      · rfl
    case idle_timer =>
      intro e x hx hidle hx'
      rcases hnew hx with hx | ⟨-, rfl⟩
      · exact h.idle_timer e x hx hidle hx'
      · cases hidle
    case busy_held =>
      intro e x hx hbusy hx'
      rcases hnew hx with hx | ⟨-, rfl⟩
      · rcases h.busy_held e x hx hbusy hx' with ⟨r', hr'⟩
        exact ⟨r', hholds hr'⟩
      · exact ⟨r, hself⟩
    case handed =>
      intro j hj hx'
      rcases hmem hj with hj | rfl
      · rcases h.handed j hj hx' with ⟨r', hr'⟩ | ⟨e, x, hx, heq⟩
        · exact .inl ⟨r', hholds hr'⟩
        · exact .inr ⟨e, x, getElem?_concat_of_some hx, heq⟩
      · exact .inl ⟨r, hself⟩

/-- A request is given the socket of an entry that is not busy. -/
theorem Custody.reuse (h : Custody s) {e : ℕ} {x : Entry S A} (hx : s.entries[e]? = some x) (hidle : x.busy = false)
    (session : S) (account : A) :
    Custody { (s.clearTimer e).modifyEntry e (fun x => { x with busy := true }) with
      requests := s.requests ++ [.holding x.socket (some { entry := e, session, account, reused := true })]
      handedOut := s.handedOut ++ [x.socket] } := by
  set s' : Pool S A := { (s.clearTimer e).modifyEntry e (fun x => { x with busy := true }) with
    requests := s.requests ++ [.holding x.socket (some { entry := e, session, account, reused := true })]
    handedOut := s.handedOut ++ [x.socket] } with hs'
  have hlt := h.entry_lt e x hx
  have hentry : ∀ {i : ℕ} {y' : Entry S A}, s'.entries[i]? = some y' →
      (i = e ∧ y' = { x with busy := true, idleTimer := none }) ∨ (i ≠ e ∧ s.entries[i]? = some y') := by
    intro i y' hy'
    simp only [hs', Pool.clearTimer, Pool.modifyEntry, List.getElem?_modify, Option.map_eq_map, Option.map_eq_some_iff] at hy'
    rcases hy' with ⟨_, ⟨y, hy, rfl⟩, rfl⟩
    by_cases hi : e = i
    · subst hi
      rw [hx] at hy
      cases hy
      rw [if_pos rfl, if_pos rfl]
      exact .inl ⟨rfl, rfl⟩
    · rw [if_neg hi, if_neg hi]
      exact .inr ⟨Ne.symm hi, hy⟩
  have hself : s'.entries[e]? = some { x with busy := true, idleTimer := none } := by
    simp only [hs', Pool.clearTimer, Pool.modifyEntry, List.getElem?_modify, hx, Option.map_eq_map, Option.map_some,
      if_true]
  have hother : ∀ {i : ℕ} {y : Entry S A}, i ≠ e → s.entries[i]? = some y → s'.entries[i]? = some y := by
    intro i y hi hy
    simp only [hs', Pool.clearTimer, Pool.modifyEntry, List.getElem?_modify, hy, Option.map_eq_map, Option.map_some,
      if_neg (Ne.symm hi)]
  have hsocket : ∀ {i : ℕ} {y' : Entry S A}, s'.entries[i]? = some y' →
      ∃ y : Entry S A, s.entries[i]? = some y ∧ y'.socket = y.socket := by
    intro i y' hy'
    rcases hentry hy' with ⟨rfl, rfl⟩ | ⟨-, hy⟩
    · exact ⟨x, hx, rfl⟩
    · exact ⟨y', hy, rfl⟩
  -- nothing has the socket of an entry that is not busy
  have hfree : ∀ {r : ℕ} {q : Request S A}, s.requests[r]? = some q → q.socket ≠ some x.socket := by
    intro r q hr hq
    rcases h.user e x r q hx hr hq with ⟨c, rfl, rfl⟩
    rcases h.cached r _ c hr with ⟨y, hy, -, hbusy⟩
    rw [hx] at hy
    cases hy
    rw [hidle] at hbusy
    cases hbusy
  have hrequest : ∀ {r : ℕ} {q : Request S A}, s'.requests[r]? = some q →
      s.requests[r]? = some q ∨ (r = s.requests.length ∧
        q = .holding x.socket (some { entry := e, session, account, reused := true })) :=
    fun hr => getElem?_concat_cases hr
  have hholds : ∀ {r k}, s.Holds r k → s'.Holds r k := by
    rintro r k ⟨c, hr⟩
    exact ⟨c, getElem?_concat_of_some hr⟩
  have hgiven : s'.Holds s.requests.length x.socket := ⟨_, List.getElem?_concat_length⟩
  have hmem : ∀ {j : ℕ}, j ∈ s'.handedOut → j ∈ s.handedOut ∨ j = x.socket := fun hj => by
    rw [hs', List.mem_append, List.mem_singleton] at hj
    exact hj
  constructor
  case socket_lt =>
    intro r q k hr hk
    rcases hrequest hr with hr | ⟨-, rfl⟩
    · exact h.socket_lt r q k hr hk
    · cases hk
      exact hlt
  case unique =>
    intro r r' q q' k hr hr' hk hk'
    rcases hrequest hr with hr | ⟨rfl, rfl⟩ <;> rcases hrequest hr' with hr' | ⟨rfl, rfl⟩
    · exact h.unique r r' q q' k hr hr' hk hk'
    · cases hk'
      exact absurd hk (hfree hr)
    · cases hk
      exact absurd hk' (hfree hr')
    · rfl
  case entry_lt =>
    intro i y' hy'
    rcases hsocket hy' with ⟨y, hy, heq⟩
    rw [heq]
    exact h.entry_lt i y hy
  case entry_unique =>
    intro i j y z hy hz heq
    rcases hsocket hy with ⟨y', hy', hyeq⟩
    rcases hsocket hz with ⟨z', hz', hzeq⟩
    exact h.entry_unique i j y' z' hy' hz' (by rw [← hyeq, ← hzeq, heq])
  case handed_lt =>
    intro k hk
    rcases hmem hk with hk | rfl
    · exact h.handed_lt k hk
    · exact hlt
  case cached =>
    intro r k c hr
    rcases hrequest hr with hr | ⟨-, heq⟩
    · rcases h.cached r k c hr with ⟨y, hy, hk, hbusy⟩
      have hne : c.entry ≠ e := by
        rintro rfl
        rw [hx] at hy
        cases hy
        rw [hidle] at hbusy
        cases hbusy
      exact ⟨y, hother hne hy, hk, hbusy⟩
    · cases heq
      exact ⟨_, hself, rfl, rfl⟩
  case user =>
    intro i y' r q hy' hr hq
    rcases hentry hy' with ⟨rfl, rfl⟩ | ⟨hi, hy⟩ <;> rcases hrequest hr with hr | ⟨rfl, rfl⟩
    · exact absurd hq (hfree hr)
    · exact ⟨_, rfl, rfl⟩
    · exact h.user i y' r q hy hr hq
    · exact absurd (h.entry_unique i e y' x hy hx (Option.some.inj hq).symm) hi
  case unhanded =>
    intro r q k hr hk hmem'
    rcases hrequest hr with hr | ⟨rfl, rfl⟩
    · rcases hmem hmem' with hmem' | rfl
      · exact hholds (h.unhanded r q k hr hk hmem')
      · exact absurd hk (hfree hr)
    · cases hk
      exact hgiven
  case busy_timer =>
    intro i y' hy' hbusy
    rcases hentry hy' with ⟨-, rfl⟩ | ⟨-, hy⟩
    · rfl
    · exact h.busy_timer i y' hy hbusy
  case idle_timer =>
    intro i y' hy' hnot hopen
    rcases hentry hy' with ⟨-, rfl⟩ | ⟨-, hy⟩
    · cases hnot
    · exact h.idle_timer i y' hy hnot hopen
  case busy_held =>
    intro i y' hy' hbusy hopen
    rcases hentry hy' with ⟨-, rfl⟩ | ⟨-, hy⟩
    · exact ⟨_, hgiven⟩
    · rcases h.busy_held i y' hy hbusy hopen with ⟨r, hr⟩
      exact ⟨r, hholds hr⟩
  case handed =>
    intro k hk hopen
    rcases hmem hk with hk | rfl
    · rcases h.handed k hk hopen with ⟨r, hr⟩ | ⟨i, y, hy, heq⟩
      · exact .inl ⟨r, hholds hr⟩
      · by_cases hi : i = e
        · subst hi
          rw [hx] at hy
          cases hy
          exact .inr ⟨i, _, hself, heq⟩
        · exact .inr ⟨i, y, hother hi hy, heq⟩
    · exact .inl ⟨_, hgiven⟩

/-- A request keeps its socket in the cache. -/
theorem Custody.keep (h : Custody s) {r k : ℕ} {c : Cached S A} (hr : s.requests[r]? = some (.holding k (some c)))
    (place : S × A) :
    Custody (Pool.modifyEntry { s with requests := s.requests.set r .over } c.entry fun x =>
      { x with busy := false, idleTimer := some place }) := by
  set s' : Pool S A := Pool.modifyEntry { s with requests := s.requests.set r .over } c.entry fun x =>
    { x with busy := false, idleTimer := some place } with hs'
  rcases h.cached r k c hr with ⟨x, hx, hk, hbusy⟩
  have hentry : ∀ {i : ℕ} {y' : Entry S A}, s'.entries[i]? = some y' →
      (i = c.entry ∧ y' = { x with busy := false, idleTimer := some place }) ∨ (i ≠ c.entry ∧ s.entries[i]? = some y') := by
    intro i y' hy'
    simp only [hs', Pool.modifyEntry, List.getElem?_modify, Option.map_eq_map, Option.map_eq_some_iff] at hy'
    rcases hy' with ⟨y, hy, rfl⟩
    by_cases hi : c.entry = i
    · rw [← hi, hx] at hy
      cases hy
      rw [if_pos hi]
      exact .inl ⟨hi.symm, rfl⟩
    · rw [if_neg hi]
      exact .inr ⟨Ne.symm hi, hy⟩
  have hself : s'.entries[c.entry]? = some { x with busy := false, idleTimer := some place } := by
    simp only [hs', Pool.modifyEntry, List.getElem?_modify, hx, Option.map_eq_map, Option.map_some, if_true]
  have hother : ∀ {i : ℕ} {y : Entry S A}, i ≠ c.entry → s.entries[i]? = some y → s'.entries[i]? = some y := by
    intro i y hi hy
    simp only [hs', Pool.modifyEntry, List.getElem?_modify, hy, Option.map_eq_map, Option.map_some, if_neg (Ne.symm hi)]
  have hsocket : ∀ {i : ℕ} {y' : Entry S A}, s'.entries[i]? = some y' →
      ∃ y : Entry S A, s.entries[i]? = some y ∧ y'.socket = y.socket := by
    intro i y' hy'
    rcases hentry hy' with ⟨rfl, rfl⟩ | ⟨-, hy⟩
    · exact ⟨x, hx, rfl⟩
    · exact ⟨y', hy, rfl⟩
  have hrequest : ∀ {q : Request S A} {r' j : ℕ}, s'.requests[r']? = some q → q.socket = some j →
      s.requests[r']? = some q ∧ r' ≠ r := by
    intro q r' j hr' hj
    rcases getElem?_set_cases hr' with ⟨-, rfl⟩ | ⟨hne, hr'⟩
    · cases hj
    · exact ⟨hr', hne⟩
  have hholds : ∀ {r' j}, j ≠ k → s.Holds r' j → s'.Holds r' j := by
    rintro r' j hj ⟨c', hr'⟩
    refine ⟨c', ?_⟩
    have hne : r ≠ r' := by
      rintro rfl
      rw [hr] at hr'
      cases hr'
      exact hj rfl
    exact (List.getElem?_set_ne hne).trans hr'
  have hne : ∀ {i : ℕ} {y : Entry S A}, i ≠ c.entry → s.entries[i]? = some y → y.socket ≠ k :=
    fun hi hy heq => hi (h.entry_unique _ _ _ x hy hx (heq.trans hk.symm))
  constructor
  case socket_lt => exact fun r' q j hr' hj => h.socket_lt r' q j (hrequest hr' hj).1 hj
  case unique =>
    exact fun r' r'' q q' j hr' hr'' hj hj' => h.unique r' r'' q q' j (hrequest hr' hj).1 (hrequest hr'' hj').1 hj hj'
  case entry_lt =>
    intro i y' hy'
    rcases hsocket hy' with ⟨y, hy, heq⟩
    rw [heq]
    exact h.entry_lt i y hy
  case entry_unique =>
    intro i j y z hy hz heq
    rcases hsocket hy with ⟨y', hy', hyeq⟩
    rcases hsocket hz with ⟨z', hz', hzeq⟩
    exact h.entry_unique i j y' z' hy' hz' (by rw [← hyeq, ← hzeq, heq])
  case handed_lt => exact h.handed_lt
  case cached =>
    intro r' j c' hr'
    rcases hrequest hr' rfl with ⟨hr', hr'ne⟩
    rcases h.cached r' j c' hr' with ⟨y, hy, hj, hybusy⟩
    have hi : c'.entry ≠ c.entry := by
      intro heq
      rw [heq, hx] at hy
      cases hy
      exact hr'ne (h.unique r' r _ _ k hr' hr (congrArg some (hj.symm.trans hk)) rfl)
    exact ⟨y, hother hi hy, hj, hybusy⟩
  case user =>
    intro i y' r' q hy' hr' hq
    rcases hrequest hr' hq with ⟨hr', hr'ne⟩
    rcases hentry hy' with ⟨-, rfl⟩ | ⟨-, hy⟩
    · exact absurd (h.unique r' r q _ k hr' hr (hq.trans (congrArg some hk)) rfl) hr'ne
    · exact h.user i y' r' q hy hr' hq
  case unhanded =>
    intro r' q j hr' hj hmem
    rcases hrequest hr' hj with ⟨hr'', -⟩
    rcases h.unhanded r' q j hr'' hj hmem with ⟨c', hc'⟩
    rw [hr''] at hc'
    cases hc'
    exact ⟨c', hr'⟩
  case busy_timer =>
    intro i y' hy' hybusy
    rcases hentry hy' with ⟨-, rfl⟩ | ⟨-, hy⟩
    · cases hybusy
    · exact h.busy_timer i y' hy hybusy
  case idle_timer =>
    intro i y' hy' hidle hopen
    rcases hentry hy' with ⟨-, rfl⟩ | ⟨-, hy⟩
    · exact nofun
    · exact h.idle_timer i y' hy hidle hopen
  case busy_held =>
    intro i y' hy' hybusy hopen
    rcases hentry hy' with ⟨-, rfl⟩ | ⟨hi, hy⟩
    · cases hybusy
    · rcases h.busy_held i y' hy hybusy hopen with ⟨r', hr'⟩
      exact ⟨r', hholds (hne hi hy) hr'⟩
  case handed =>
    intro j hj hopen
    by_cases hjk : j = k
    · exact .inr ⟨c.entry, _, hself, hk.trans hjk.symm⟩
    · rcases h.handed j hj hopen with ⟨r', hr'⟩ | ⟨i, y, hy, heq⟩
      · exact .inl ⟨r', hholds hjk hr'⟩
      · have hi : i ≠ c.entry := by
          rintro rfl
          rw [hx] at hy
          cases hy
          exact hjk (heq.symm.trans hk)
        exact .inr ⟨i, y, hother hi hy, heq⟩

/-! ## Runs -/

theorem Custody.cache (h : Custody s) (cache : Table S (Table A ℕ)) : Custody { s with websocketSessionCache := cache } :=
  h.shut ((Shut.refl s).cache cache)

section

variable [DecidableEq S] [DecidableEq A]

theorem shut_discard (s : Pool S A) (session : S) (account : A) (k : ℕ) : Shut s (s.discard session account k) :=
  (shut_close s k).cache _

/-- The entry of the account is in the cache. -/
theorem Custody.acquireCached (h : Custody s) {e : ℕ} {cached : Entry S A} (he : s.entries[e]? = some cached) (session : S)
    (account : A) (now : ℕ) (reported : Bool) : Custody (s.acquireCached session account now reported e cached) := by
  unfold Pool.acquireCached
  dsimp only
  split
  · rename_i hcond
    simp only [Bool.and_eq_true, Bool.not_eq_true'] at hcond
    exact h.reuse he hcond.1.1 session account
  · rename_i hcond
    split
    · rename_i hbusy
      exact (h.shut (shut_clearTimer he (.inl hbusy))).connect reported none
    · rename_i hidle
      apply Custody.connect
      apply h.shut
      have hclosed : Shut s ((s.clearTimer e).discard session account cached.socket) :=
        (shut_clearTimer_close he).cache _
      -- the socket is closed for its age, or because it cannot be used again
      by_cases hexpired : cached.isExpired now = true
      · rw [if_pos hexpired]
        split
        · exact hclosed
        · exact hclosed.trans (shut_discard _ session account cached.socket)
      · rw [if_neg hexpired]
        split
        · rename_i hreusable
          simp only [hreusable, Bool.eq_false_of_not_eq_true hidle, Bool.eq_false_of_not_eq_true hexpired, Bool.not_false,
            Bool.and_true, not_true_eq_false] at hcond
        · exact hclosed

theorem Custody.release (h : Custody s) {r k : ℕ} {cached : Option (Cached S A)}
    (hr : s.requests[r]? = some (.holding k cached)) (keep : Bool) : Custody (s.release r k cached keep) := by
  cases cached with
  | none =>
    have hover := (h.shut (shut_close s k)).over (r := r) hr rfl (not_isOpen_close s k)
    exact hover
  | some c =>
    show Custody (Pool.releaseCached _ _ _ _)
    unfold Pool.releaseCached
    split
    · rcases h.cached r k c hr with ⟨x, hx, rfl, -⟩
      apply Custody.cache
      have hclosed := (h.shut (shut_close s x.socket)).over (r := r) hr rfl (not_isOpen_close s x.socket)
      split
      · exact hclosed
      · exact hclosed.shut (shut_clearTimer (x := x) hx (.inr (not_isOpen_close s x.socket)))
    · exact h.keep hr (c.session, c.account)

theorem shut_idleTimeout {e : ℕ} {x : Entry S A} (hx : s.entries[e]? = some x) (place : S × A) :
    Shut s (s.idleTimeout e x place) := by
  unfold Pool.idleTimeout
  dsimp only
  split
  · rename_i hbusy
    exact shut_clearTimer hx (.inl hbusy)
  · exact (shut_clearTimer_close hx).cache _

theorem Custody.step (h : Custody s) {a : Action S A} (hs : s.step a = some s') : Custody s' := by
  cases a with
  | acquire sessionId account now reported =>
    cases hs
    unfold Pool.acquireWebSocket
    split
    · exact h.connect reported none
    · split
      · exact h.connect reported _
      · split
        · exact h.connect reported _
        · rename_i he
          exact h.acquireCached he _ account now reported
  | opened r =>
    simp only [Pool.step] at hs
    split at hs
    · rename_i hr
      split at hs
      · cases hs
        exact h.opened hr
      · cases hs
    · cases hs
  | connectFailed r =>
    simp only [Pool.step] at hs
    split at hs
    · rename_i k place hr
      cases hs
      have hshut : Shut s (s.modifySocket k fun x => { x with readyState := .closed }) :=
        shut_modifySocket s k fun _ hopen => nomatch hopen
      refine (h.shut hshut).over hr rfl fun hopen => ?_
      rcases isOpen_modifySocket hopen with ⟨x, -, hopened⟩
      rw [if_pos rfl] at hopened
      cases hopened
    · cases hs
  | handOut r now =>
    simp only [Pool.step] at hs
    split at hs
    · rename_i hr
      cases hs
      exact h.handOut hr now
    · cases hs
  | release r keep =>
    simp only [Pool.step] at hs
    split at hs
    · rename_i hr
      cases hs
      exact h.release hr keep
    · cases hs
  | idleTimeout e =>
    simp only [Pool.step] at hs
    split at hs
    · rename_i x hx
      rcases Option.map_eq_some_iff.mp hs with ⟨place, -, rfl⟩
      exact h.shut (shut_idleTimeout hx place)
    · cases hs
  | socketFailed k =>
    cases hs
    exact h.shut (shut_modifySocket s k fun _ hopen => nomatch hopen)
  | closeSessions sessionId =>
    cases hs
    exact h.shut (shut_closeSessions s sessionId)

/-- No two requests hold a socket, and an open socket that has been handed out is held, or a timer is pending that closes
it. -/
structure Exclusive (s : Pool S A) : Prop where
  holds_unique : ∀ r r' k, s.Holds r k → s.Holds r' k → r = r'
  held_or_closed : ∀ k ∈ s.handedOut, s.isOpen k →
    (∃ r, s.Holds r k) ∨ ∃ e s', s.step (.idleTimeout e) = some s' ∧ ¬s'.isOpen k

theorem Custody.exclusive (h : Custody s) : Exclusive s := by
  refine ⟨fun r r' k ⟨c, hr⟩ ⟨c', hr'⟩ => h.unique r r' _ _ k hr hr' rfl rfl, fun k hk hopen => ?_⟩
  rcases h.handed k hk hopen with hheld | ⟨e, x, hx, rfl⟩
  · exact .inl hheld
  · by_cases hbusy : x.busy = true
    · exact .inl (h.busy_held e x hx hbusy hopen)
    · have hidle := Bool.eq_false_of_not_eq_true hbusy
      rcases Option.ne_none_iff_exists'.mp (h.idle_timer e x hx hidle hopen) with ⟨place, hplace⟩
      refine .inr ⟨e, s.idleTimeout e x place, ?_, ?_⟩
      · simp only [Pool.step, hx, hplace, Option.map_some]
      · unfold Pool.idleTimeout
        rw [hidle]
        exact not_isOpen_close (s.clearTimer e) x.socket

theorem exclusive_of_reaches (s : Pool S A) (h : Reaches Pool.step (fun _ _ => True) {} s) : Exclusive s :=
  (h.invariant custody_init fun _ _ _ hs _ hstep => hs.step hstep).exclusive

end

/-- A second request comes while the first holds the cached socket, and a third when the first has released it. -/
def sharedRun : List (Action ℕ ℕ) :=
  [.acquire (some 0) 0 0 true, .opened 0, .handOut 0 0, .acquire (some 0) 0 1 true, .opened 1, .handOut 1 2,
    .release 0 true, .acquire (some 0) 0 3 true, .release 1 true, .release 2 true]

theorem exclusive_of_reaches_sharedRun : ∃ s : Pool ℕ ℕ, Exclusive s ∧ s.handedOut = [0, 1, 0] ∧
    s.sockets.map Socket.readyState = [.opened, .closing] ∧ s.entries.map Entry.idleTimer = [some (0, 0)] := by
  obtain ⟨s, hs⟩ : ∃ s, sharedRun.foldlM Pool.step {} = some s := ⟨_, (Option.some_get (by decide)).symm⟩
  have hrest : s.handedOut = [0, 1, 0] ∧ s.sockets.map Socket.readyState = [.opened, .closing] ∧
      s.entries.map Entry.idleTimer = [some (0, 0)] := by
    cases hs
    decide
  exact ⟨s, exclusive_of_reaches s (.of_foldlM hs), hrest⟩

end Phi.Ai.SocketPool
